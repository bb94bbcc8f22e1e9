import Mathlib.Data.List.Sort
import Mathlib.Data.Prod.Lex
import Mathlib.Order.WithBot
import FlashCkpt.Faults.Coalescing

/-! The preprocessing of a batch: the entries that are not filtered are sorted by context, each
context is translated to its VA space, and they are sorted again by VA space, page and access. -/
namespace FlashCkpt.Faults

/-- `sort` of the kernel, which need not keep the order of equal elements. -/
structure KernelSort (α : Type) where
  sort : (α → α → Bool) → List α → List α
  perm : ∀ le l, (sort le l).Perm l
  sorted : ∀ le l, (∀ a b c, le a b = true → le b c = true → le a c = true) →
    (∀ a b, (le a b || le b a) = true) → (sort le l).Pairwise fun a b => le a b = true

/-- A sort that keeps the order of equal elements is one of them. -/
def KernelSort.stable (α : Type) : KernelSort α where
  sort := fun le l => l.insertionSort fun a b => le a b = true
  perm := fun _ l => List.perm_insertionSort _ l
  sorted := fun le l hTrans hTotal =>
    have : Std.Total fun a b => le a b = true := ⟨fun a b => (Bool.or_eq_true _ _).mp (hTotal a b)⟩
    have : IsTrans α fun a b => le a b = true := ⟨hTrans⟩
    List.pairwise_insertionSort _ l

/-- A comparator that compares a key. -/
def byKey {α K : Type} [LinearOrder K] (key : α → K) (a b : α) : Bool := decide (key a ≤ key b)

theorem KernelSort.sorted_key {α K : Type} [LinearOrder K] (S : KernelSort α) (key : α → K)
    (l : List α) : (S.sort (byKey key) l).Pairwise fun a b => key a ≤ key b := by
  refine (S.sorted (byKey key) l (fun a b c hab hbc => ?_) fun a b => ?_).imp fun h => of_decide_eq_true h
  · exact decide_eq_true (le_trans (of_decide_eq_true hab) (of_decide_eq_true hbc))
  · rcases le_total (key a) (key b) with h | h
    · rw [byKey, decide_eq_true h, Bool.true_or]
    · rw [Bool.or_comm, byKey, decide_eq_true h, Bool.true_or]

variable {V : Type}

/-- The key of `cmp_sort_fault_entry_by_instance_ptr`. -/
def Entry.contextKey (e : Entry V) : Nat ×ₗ Nat := toLex e.context

/-- The key of `cmp_sort_fault_entry_by_va_space_address_access_type`, where more intrusive accesses
come first. -/
def Entry.sortKey (e : Entry V) : WithBot V ×ₗ Nat ×ₗ AccessTypeᵒᵈ :=
  toLex (e.vaSpace, toLex (e.faultAddress, OrderDual.toDual e.accessType))

def Entry.inSpace (e : Entry V) (space : V) : Entry V := { e with vaSpace := some space }

/-- `translate_instance_ptrs` behind the entry `previous`. A context without a VA space ends it: the
fault buffer is flushed and the batch is given up. -/
def translateInstancePtrs (lookup : Nat × Nat → Option V) :
    Option (Entry V) → List (Entry V) → Option (List (Entry V))
  | _, [] => some []
  | previous, e :: rest =>
      let found := match previous.filter fun p => e.sameInstance p.toReport with
        | some p => p.vaSpace
        | none => lookup e.context
      match found with
      | none => none
      | some space =>
          (translateInstancePtrs lookup (some (e.inSpace space)) rest).map (e.inSpace space :: ·)

/-- The contexts that are looked up on the way. -/
def translations : Option (Entry V) → List (Entry V) → List (Nat × Nat)
  | _, [] => []
  | previous, e :: rest =>
      if previous.any fun p => e.sameInstance p.toReport then translations (some e) rest
      else e.context :: translations (some e) rest

/-- The entries in the order in which they are translated. -/
def orderedFaultCache (S : KernelSort (Entry V)) (b : Batch V) : List (Entry V) :=
  let unfiltered := b.cache.filter fun e => !e.filtered
  if b.isSingleInstancePtr then unfiltered else S.sort (byKey Entry.contextKey) unfiltered

/-- `preprocess_fault_batch`. -/
def preprocessFaultBatch [LinearOrder V] (S : KernelSort (Entry V)) (lookup : Nat × Nat → Option V)
    (b : Batch V) : Option (List (Entry V)) :=
  (translateInstancePtrs lookup none (orderedFaultCache S b)).map (S.sort (byKey Entry.sortKey))

section Translation

variable {lookup : Nat × Nat → Option V} {previous : Option (Entry V)} {l out : List (Entry V)}

/-- The entry before has the VA space of its context. -/
def Translated (lookup : Nat × Nat → Option V) (previous : Option (Entry V)) : Prop :=
  ∀ p, previous = some p → p.vaSpace = lookup p.context

theorem found_eq_lookup (h : Translated lookup previous) (e : Entry V) :
    (match previous.filter fun p => e.sameInstance p.toReport with
      | some p => p.vaSpace
      | none => lookup e.context) = lookup e.context := by
  cases hFound : previous.filter fun p => e.sameInstance p.toReport with
  | none => rfl
  | some p =>
      rw [Option.filter_eq_some_iff] at hFound
      rw [Report.sameInstance_iff.mp hFound.2]
      exact h p hFound.1

/-- Whatever the order of the entries, each one gets the VA space of its own context. -/
theorem translateInstancePtrs_eq_some (h : Translated lookup previous) :
    translateInstancePtrs lookup previous l = some out ↔
      (∀ e ∈ l, (lookup e.context).isSome = true) ∧
        out = l.map fun e => { e with vaSpace := lookup e.context } := by
  induction l generalizing previous out with
  | nil =>
      rw [translateInstancePtrs, Option.some.injEq, List.map_nil]
      exact ⟨fun hOut => ⟨fun _ he => absurd he List.not_mem_nil, hOut.symm⟩, fun hOut => hOut.2.symm⟩
  | cons e rest ih =>
      rw [translateInstancePtrs, found_eq_lookup h e, List.forall_mem_cons, List.map_cons]
      cases hSpace : lookup e.context with
      | none =>
          refine iff_of_false (fun hSome => ?_) fun hOut => ?_
          · cases hSome
          · cases hOut.1.1
      | some space =>
          have hNext : Translated lookup (some (e.inSpace space)) := by
            intro p hp
            cases hp
            exact hSpace.symm
          rw [Option.map_eq_some_iff]
          constructor
          · rintro ⟨tail, hTail, rfl⟩
            obtain ⟨hAll, rfl⟩ := (ih hNext).mp hTail
            exact ⟨⟨rfl, hAll⟩, rfl⟩
          · rintro ⟨⟨-, hAll⟩, rfl⟩
            exact ⟨_, (ih hNext).mpr ⟨hAll, rfl⟩, rfl⟩

theorem mem_translations {context : Nat × Nat} :
    (context ∈ translations previous l → ∃ e ∈ l, e.context = context) ∧
      ((∃ e ∈ l, e.context = context) →
        context ∈ translations previous l ∨ ∃ p, previous = some p ∧ p.context = context) := by
  induction l generalizing previous with
  | nil =>
      exact ⟨fun h => absurd h List.not_mem_nil, fun ⟨_, he, _⟩ => absurd he List.not_mem_nil⟩
  | cons e rest ih =>
      have hRest := @ih (some e)
      rw [translations]
      split
      · rename_i hSame
        rw [Option.any_eq_true] at hSame
        obtain ⟨p, hp, hSame⟩ := hSame
        refine ⟨fun h => ?_, ?_⟩
        · obtain ⟨e', he', hEq⟩ := hRest.1 h
          exact ⟨e', List.mem_cons_of_mem e he', hEq⟩
        · rintro ⟨e', he', hEq⟩
          have hPrevious : e.context = p.context := Report.sameInstance_iff.mp hSame
          rcases List.mem_cons.mp he' with rfl | he'
          · exact .inr ⟨p, hp, hPrevious.symm.trans hEq⟩
          · rcases hRest.2 ⟨e', he', hEq⟩ with hMem | ⟨q, hq, hEq⟩
            · exact .inl hMem
            · cases hq
              exact .inr ⟨p, hp, hPrevious.symm.trans hEq⟩
      · rw [List.mem_cons]
        refine ⟨?_, ?_⟩
        · rintro (rfl | h)
          · exact ⟨e, List.mem_cons_self, rfl⟩
          · obtain ⟨e', he', hEq⟩ := hRest.1 h
            exact ⟨e', List.mem_cons_of_mem e he', hEq⟩
        · rintro ⟨e', he', hEq⟩
          rcases List.mem_cons.mp he' with rfl | he'
          · exact .inl (.inl hEq.symm)
          · rcases hRest.2 ⟨e', he', hEq⟩ with hMem | ⟨q, hq, hEq⟩
            · exact .inl (.inr hMem)
            · cases hq
              exact .inl (.inl hEq.symm)

/-- Entries that are sorted by their context have each context looked up at most once. -/
theorem translations_nodup (hSorted : l.Pairwise fun a b => a.contextKey ≤ b.contextKey)
    (hPrevious : ∀ p, previous = some p → ∀ e ∈ l, p.contextKey ≤ e.contextKey) :
    (translations previous l).Nodup ∧
      ∀ p, previous = some p → p.context ∉ translations previous l := by
  induction l generalizing previous with
  | nil => exact ⟨List.nodup_nil, fun _ _ => List.not_mem_nil⟩
  | cons e rest ih =>
      rw [List.pairwise_cons] at hSorted
      have hBehind : ∀ p, some e = some p → ∀ e' ∈ rest, p.contextKey ≤ e'.contextKey := by
        intro p hp e' he'
        cases hp
        exact hSorted.1 e' he'
      have hRest := ih hSorted.2 hBehind
      rw [translations]
      split
      · rename_i hSame
        rw [Option.any_eq_true] at hSame
        obtain ⟨p, hp, hSame⟩ := hSame
        refine ⟨hRest.1, fun q hq => ?_⟩
        rw [hp] at hq
        cases hq
        rw [← Report.sameInstance_iff.mp hSame]
        exact hRest.2 e rfl
      · rename_i hOther
        refine ⟨List.nodup_cons.mpr ⟨hRest.2 e rfl, hRest.1⟩, fun p hp hMem => ?_⟩
        have hNe : e.context ≠ p.context := fun hEq => hOther (by
          rw [hp]
          exact Report.sameInstance_iff.mpr hEq)
        have hLe := hPrevious p hp e List.mem_cons_self
        rcases List.mem_cons.mp hMem with hEq | hMem
        · exact hNe hEq.symm
        · -- the entries behind `e` are not before it
          obtain ⟨e', he', hEq⟩ := (mem_translations.1 hMem : ∃ e ∈ rest, _)
          have hBehind := hSorted.1 e' he'
          have hSame : e'.contextKey = p.contextKey := congrArg toLex hEq
          have hKey : e.contextKey = p.contextKey := le_antisymm (hSame ▸ hBehind) hLe
          exact hNe (toLex.injective hKey)

end Translation

section Ordered

variable {b : Batch V} {reports : List Report} (S : KernelSort (Entry V))

theorem orderedFaultCache_perm (b : Batch V) :
    (orderedFaultCache S b).Perm (b.cache.filter fun e => !e.filtered) := by
  rw [orderedFaultCache]
  split
  · exact List.Perm.refl _
  · exact S.perm _ _

theorem mem_orderedFaultCache {e : Entry V} :
    e ∈ orderedFaultCache S b ↔ e ∈ b.cache ∧ e.filtered = false := by
  rw [(orderedFaultCache_perm S b).mem_iff, List.mem_filter, Bool.not_eq_true']

/-- A batch from one context is in order as it is. -/
theorem orderedFaultCache_sorted (h : b.Inv reports) :
    (orderedFaultCache S b).Pairwise fun a b => a.contextKey ≤ b.contextKey := by
  rw [orderedFaultCache]
  split
  · rename_i hSingle
    refine List.pairwise_of_forall_mem_list (fun a ha c hc => le_of_eq ?_)
    obtain ⟨i, hi⟩ := List.mem_iff_getElem?.mp (List.mem_of_mem_filter ha)
    obtain ⟨j, hj⟩ := List.mem_iff_getElem?.mp (List.mem_of_mem_filter hc)
    obtain ⟨r, hr, hEq⟩ := h.report_of hi
    obtain ⟨r', hr', hEq'⟩ := h.report_of hj
    have hShared : r.aligned.context = r'.aligned.context := h.single.mp hSingle r hr r' hr'
    rw [hEq, hEq'] at hShared
    exact congrArg toLex hShared
  · exact S.sorted_key Entry.contextKey _

theorem exists_ordered_iff (h : b.Inv reports) {context : Nat × Nat} :
    (∃ e ∈ orderedFaultCache S b, e.context = context) ↔ ∃ r ∈ reports, r.context = context := by
  constructor
  · rintro ⟨e, he, rfl⟩
    obtain ⟨i, hi⟩ := List.mem_iff_getElem?.mp ((mem_orderedFaultCache S).mp he).1
    obtain ⟨r, hr, hEq⟩ := h.report_of hi
    have hShared : r.aligned.context = e.context := congrArg Report.context hEq
    exact ⟨r, hr, hShared⟩
  · rintro ⟨r, hr, rfl⟩
    obtain ⟨e, he, hUnfiltered, hPage, -⟩ := h.represented hr
    exact ⟨e, (mem_orderedFaultCache S).mpr ⟨he, hUnfiltered⟩, hPage.1.symm⟩

/-- The ordered view has the entries that are not filtered, in order, and so one for each fault. -/
theorem preprocessFaultBatch_some [LinearOrder V] {lookup : Nat × Nat → Option V} {out : List (Entry V)}
    (h : b.Inv reports) (hOut : preprocessFaultBatch S lookup b = some out) :
    out.Perm ((b.cache.filter fun e => !e.filtered).map fun e => { e with vaSpace := lookup e.context }) ∧
      out.Pairwise (fun e e' => e.sortKey ≤ e'.sortKey) ∧
      ∀ report ∈ reports, ∃ e ∈ out, (∃ space, e.vaSpace = some space ∧ lookup report.context = some space) ∧
        e.faultAddress = report.aligned.faultAddress ∧ report.accessType ≤ e.accessType := by
  have hStart : Translated lookup (none : Option (Entry V)) := fun _ hNone =>
    absurd hNone (Option.some_ne_none _).symm
  rw [preprocessFaultBatch, Option.map_eq_some_iff] at hOut
  obtain ⟨translated, hTranslated, rfl⟩ := hOut
  obtain ⟨hAll, rfl⟩ := (translateInstancePtrs_eq_some hStart).mp hTranslated
  have hPerm := S.perm (byKey Entry.sortKey)
    ((orderedFaultCache S b).map fun e => { e with vaSpace := lookup e.context })
  refine ⟨hPerm.trans ((orderedFaultCache_perm S b).map _), S.sorted_key _ _, fun report hReport => ?_⟩
  obtain ⟨r, hr, hUnfiltered, hPage, hAccess⟩ := h.represented hReport
  have hMem := (mem_orderedFaultCache S).mpr ⟨hr, hUnfiltered⟩
  obtain ⟨space, hSpace⟩ := Option.isSome_iff_exists.mp (hAll r hMem)
  have hContext : report.context = r.context := hPage.1
  exact ⟨{ r with vaSpace := lookup r.context }, hPerm.mem_iff.mpr (List.mem_map_of_mem hMem),
    ⟨space, hSpace, hContext ▸ hSpace⟩, hPage.2.symm, hAccess⟩

end Ordered

/-- The ordered view of a batch: each entry that is not filtered is in it once, with the VA space of
its own context, sorted by VA space, page and access; each fault that was fetched has an entry there
for its page with an access at least as intrusive; and a context is translated once, whatever the
kernel does with equal elements. The batch is given up only for a context without a VA space. -/
theorem preprocess_ordered [LinearOrder V] (earlier : List (Bool × List Report)) (mayFilter : Bool)
    (reports : List Report) (S : KernelSort (Entry V)) (lookup : Nat × Nat → Option V) :
    let b := (Batch.after V earlier).fetchEntries mayFilter reports
    (∀ out, preprocessFaultBatch S lookup b = some out →
      out.Perm ((b.cache.filter fun e => !e.filtered).map fun e =>
        { e with vaSpace := lookup e.context }) ∧
      out.Pairwise (fun e e' => e.sortKey ≤ e'.sortKey) ∧
      ∀ report ∈ reports, ∃ e ∈ out, (∃ space, e.vaSpace = some space ∧ lookup report.context = some space) ∧
        e.faultAddress = report.aligned.faultAddress ∧ report.accessType ≤ e.accessType) ∧
    (preprocessFaultBatch S lookup b = none ↔ ∃ report ∈ reports, lookup report.context = none) ∧
    (translations none (orderedFaultCache S b)).Nodup ∧
    ∀ context, context ∈ translations none (orderedFaultCache S b) ↔
      ∃ report ∈ reports, report.context = context := by
  have hInv := (Batch.after_clean (V := V) earlier).fetchEntries mayFilter reports
  generalize (Batch.after V earlier).fetchEntries mayFilter reports = b at hInv ⊢
  have hStart : Translated lookup (none : Option (Entry V)) := fun _ hNone =>
    absurd hNone (Option.some_ne_none _).symm
  refine ⟨fun out hOut => preprocessFaultBatch_some S hInv hOut, ?_, ?_, fun context => ?_⟩
  · have hNone : preprocessFaultBatch S lookup b = none ↔
        ¬∃ out, translateInstancePtrs lookup none (orderedFaultCache S b) = some out := by
      rw [preprocessFaultBatch, Option.map_eq_none_iff, Option.eq_none_iff_forall_ne_some, not_exists]
    rw [hNone]
    constructor
    · intro hFails
      by_contra hAll
      refine hFails ⟨_, (translateInstancePtrs_eq_some hStart).mpr ⟨fun e he => ?_, rfl⟩⟩
      obtain ⟨r, hr, hEq⟩ := (exists_ordered_iff S hInv).mp ⟨e, he, rfl⟩
      rw [← hEq, Option.isSome_iff_ne_none]
      exact fun hFound => hAll ⟨r, hr, hFound⟩
    · rintro ⟨r, hr, hFound⟩ ⟨out, hOut⟩
      obtain ⟨e, he, hEq⟩ := (exists_ordered_iff S hInv).mpr ⟨r, hr, rfl⟩
      have hSome := ((translateInstancePtrs_eq_some hStart).mp hOut).1 e he
      rw [hEq, hFound] at hSome
      cases hSome
  · exact (translations_nodup (orderedFaultCache_sorted S hInv) fun _ hNone =>
      absurd hNone (Option.some_ne_none _).symm).1
  · rw [← exists_ordered_iff S hInv]
    refine ⟨mem_translations.1, fun hMem => (mem_translations.2 hMem).resolve_right ?_⟩
    rintro ⟨p, hNone, -⟩
    cases hNone

end FlashCkpt.Faults
