import FlashCkpt.Agent.Rounds

/-! What the learning rounds of `ckpt_agent` hand to the adaptive ones: the dirty
addresses reach the classifier through a file that `ckpt_core` writes on one of its
paths only, and that stays on disk from one round to the next. -/
namespace FlashCkpt.Agent

open Image Driver Restore Transition

/-- One more element of a table without duplicates, as long as there is room. -/
def insertNew (limit : Nat) (vas : List Nat) (va : Nat) : List Nat :=
  if va ∉ vas ∧ vas.length < limit then vas ++ [va] else vas

/-- The first elements of a list that differ from each other. -/
def firstDistinct (limit : Nat) (vas : List Nat) : List Nat := vas.foldl (insertNew limit) []

theorem mem_insertNew_of_mem {limit : Nat} {vas : List Nat} {va : Nat} (h : va ∈ vas) :
    insertNew limit vas va = vas :=
  if_neg fun hNew => hNew.1 h

theorem insertNew_full {limit : Nat} {vas : List Nat} (h : limit ≤ vas.length) (va : Nat) :
    insertNew limit vas va = vas :=
  if_neg fun hNew => Nat.not_lt.mpr h hNew.2

/-- A table that is filled on top of another one: those of its elements that are new. -/
theorem foldl_insertNew (limit : Nat) (old vas new : List Nat) :
    new.foldl (insertNew (old.length + limit)) (old ++ vas) =
      old ++ (new.filter (· ∉ old)).foldl (insertNew limit) vas := by
  induction new generalizing vas with
  | nil => rfl
  | cons va rest ih =>
      by_cases hOld : va ∈ old
      · rw [List.foldl_cons, mem_insertNew_of_mem (List.mem_append_left vas hOld), ih,
          List.filter_cons_of_neg (by simpa using hOld)]
      · have hStep : insertNew (old.length + limit) (old ++ vas) va =
            old ++ insertNew limit vas va := by
          simp only [insertNew, List.mem_append, hOld, false_or, List.length_append,
            Nat.add_lt_add_iff_left]
          split
          · rw [List.append_assoc]
          · rfl
        rw [List.foldl_cons, hStep, ih, List.filter_cons_of_pos (by simpa using hOld),
          List.foldl_cons]

section Classifier

/-- Every entry of the classifier was dirty in some round. -/
def Classifier.Counted (pc : Classifier) : Prop := ∀ e ∈ pc, 0 < e.dirtyCount

theorem map_countDirty (room : Bool) (va : Nat) (pc : Classifier) :
    (countDirty room va pc).map ClassEntry.va =
      if va ∉ pc.map ClassEntry.va ∧ room then pc.map ClassEntry.va ++ [va]
      else pc.map ClassEntry.va := by
  induction pc with
  | nil => cases room <;> simp [countDirty]
  | cons e rest ih =>
      rw [countDirty]
      by_cases hSame : e.va = va
      · simp [hSame]
      · rw [if_neg hSame, List.map_cons, ih, List.map_cons]
        simp only [List.mem_cons, Ne.symm hSame, false_or]
        split <;> rfl

theorem counted_countDirty {pc : Classifier} (h : pc.Counted) (room : Bool) (va : Nat) :
    Classifier.Counted (countDirty room va pc) := by
  induction pc with
  | nil =>
      intro e he
      cases room with
      | false => cases he
      | true =>
          cases List.mem_singleton.mp he
          exact Nat.one_pos
  | cons first rest ih =>
      have hRest : Classifier.Counted rest := fun e he => h e (List.mem_cons_of_mem first he)
      intro e he
      rw [countDirty] at he
      split at he
      · rcases List.mem_cons.mp he with rfl | he
        · exact Nat.succ_pos _
        · exact hRest e he
      · rcases List.mem_cons.mp he with rfl | he
        · exact h e List.mem_cons_self
        · exact ih hRest e he

/-- What the addresses of one dump do to the classifier, with those seen in the round. -/
structure Seen (state : Classifier × List Nat) : Prop where
  counted : state.1.Counted
  seen : ∀ va ∈ state.2, va ∈ state.1.map ClassEntry.va ∨ max2mPages ≤ state.1.length

theorem Seen.step {state : Classifier × List Nat} (h : Seen state) (addr : Nat) :
    (classifierStep state addr).1.map ClassEntry.va =
        insertNew max2mPages (state.1.map ClassEntry.va) (chunkOf addr) ∧
      Seen (classifierStep state addr) := by
  by_cases hSeen : chunkOf addr ∈ state.2
  · have hSame : classifierStep state addr = state := if_pos hSeen
    rw [hSame]
    refine ⟨?_, h⟩
    rcases h.seen _ hSeen with hMem | hFull
    · exact (mem_insertNew_of_mem hMem).symm
    · exact (insertNew_full (by rwa [List.length_map]) _).symm
  · have hFirst : (classifierStep state addr).1 =
        countDirty (state.1.length < max2mPages) (chunkOf addr) state.1 := by
      simp only [classifierStep, if_neg hSeen]
    have hVas : (classifierStep state addr).1.map ClassEntry.va =
        insertNew max2mPages (state.1.map ClassEntry.va) (chunkOf addr) := by
      rw [hFirst, map_countDirty, insertNew, List.length_map]
      simp only [decide_eq_true_eq]
    refine ⟨hVas, hFirst ▸ counted_countDirty h.counted _ _, ?_⟩
    intro va hva
    have hLength : (classifierStep state addr).1.length =
        ((classifierStep state addr).1.map ClassEntry.va).length := (List.length_map _).symm
    rw [hLength, hVas]
    have hOld : va = chunkOf addr ∨ va ∈ state.2 := by
      simp only [classifierStep, if_neg hSeen] at hva
      split at hva
      · rcases List.mem_append.mp hva with hva | hva
        · exact .inr hva
        · exact .inl (List.mem_singleton.mp hva)
      · exact .inr hva
    have hGrows : ∀ vas : List Nat, va = chunkOf addr ∨ va ∈ vas ∨ max2mPages ≤ vas.length →
        va ∈ insertNew max2mPages vas (chunkOf addr) ∨
          max2mPages ≤ (insertNew max2mPages vas (chunkOf addr)).length := by
      intro vas hCase
      rw [insertNew]
      split
      · rcases hCase with rfl | hMem | hFull
        · exact .inl (List.mem_append_right vas List.mem_cons_self)
        · exact .inl (List.mem_append_left _ hMem)
        · exact .inr (by rw [List.length_append]; omega)
      · rename_i hNot
        rcases hCase with rfl | hMem | hFull
        · by_cases hMem : chunkOf addr ∈ vas
          · exact .inl hMem
          · exact .inr (Nat.not_lt.mp fun hRoom => hNot ⟨hMem, hRoom⟩)
        · exact .inl hMem
        · exact .inr hFull
    refine hGrows _ (hOld.imp_right fun hMem => ?_)
    rw [List.length_map]
    exact h.seen va hMem

theorem foldl_classifierStep (dump : List Nat) (state : Classifier × List Nat) (h : Seen state) :
    (dump.foldl classifierStep state).1.map ClassEntry.va =
        (dump.map chunkOf).foldl (insertNew max2mPages) (state.1.map ClassEntry.va) ∧
      (dump.foldl classifierStep state).1.Counted := by
  induction dump generalizing state with
  | nil => exact ⟨rfl, h.counted⟩
  | cons addr rest ih =>
      obtain ⟨hVas, hSeen⟩ := h.step addr
      rw [List.foldl_cons, List.map_cons, List.foldl_cons, ← hVas]
      exact ih _ hSeen

/-- The classifier collects the first distinct 2 MB pages of all dumps. -/
theorem classifierUpdate_vas {pc : Classifier} (h : pc.Counted) (dump : List Nat) :
    (classifierUpdate pc dump).map ClassEntry.va =
        (dump.map chunkOf).foldl (insertNew max2mPages) (pc.map ClassEntry.va) ∧
      (classifierUpdate pc dump).Counted :=
  foldl_classifierStep dump (pc, []) ⟨h, fun _ hva => absurd hva List.not_mem_nil⟩

/-- The 2 MB pages of the allocations that are not H2D. -/
def gpuOnlyPages (allocs : List GateAlloc) : List Nat :=
  (allocs.filter fun e => !e.h2d).flatMap allocChunks

theorem dynamicVas_eq {pc : Classifier} (h : pc.Counted) (allocs : List GateAlloc) :
    dynamicVas pc allocs = pc.map ClassEntry.va ++
      firstDistinct max2mPages
        ((gpuOnlyPages allocs).filter (· ∉ pc.map ClassEntry.va)) := by
  have hDirty : (pc.filter fun e => 0 < e.dirtyCount) = pc :=
    List.filter_eq_self.mpr fun e he => by simpa using h e he
  have hFold := foldl_insertNew max2mPages (pc.map ClassEntry.va) [] (gpuOnlyPages allocs)
  rw [List.length_map, List.append_nil] at hFold
  rw [dynamicVas, hDirty]
  exact hFold

/-- The page lies in the 2 MB page. -/
theorem chunkOf_eq_iff {va : Nat} (h : va % blockPages = 0) (p : Nat) :
    va ≤ p ∧ p < va + blockPages ↔ va = chunkOf p := by
  simp only [chunkOf, blockPages] at h ⊢
  omega

theorem chunkOf_mod (p : Nat) : chunkOf p % blockPages = 0 := Nat.mul_mod_left _ _

theorem chunkOf_chunkOf (p : Nat) : chunkOf (chunkOf p) = chunkOf p :=
  ((chunkOf_eq_iff (chunkOf_mod p) (chunkOf p)).mp ⟨Nat.le_refl _, by
    have : blockPages = 512 := rfl
    omega⟩).symm

theorem gpuOnlyPages_mod {allocs : List GateAlloc} {va : Nat} (h : va ∈ gpuOnlyPages allocs) :
    va % blockPages = 0 := by
  obtain ⟨e, -, hva⟩ := List.mem_flatMap.mp h
  obtain ⟨i, -, rfl⟩ := List.mem_map.mp hva
  rw [Nat.add_mul_mod_self_right, chunkOf_mod]

theorem mem_foldl_insertNew {limit : Nat} {new vas : List Nat} {va : Nat}
    (h : va ∈ new.foldl (insertNew limit) vas) : va ∈ vas ∨ va ∈ new := by
  induction new generalizing vas with
  | nil => exact .inl h
  | cons first rest ih =>
      rcases ih h with hVas | hRest
      · rw [insertNew] at hVas
        split at hVas
        · rcases List.mem_append.mp hVas with hVas | hFirst
          · exact .inl hVas
          · exact .inr (by simp [List.mem_singleton.mp hFirst])
        · exact .inl hVas
      · exact .inr (List.mem_cons_of_mem first hRest)

end Classifier

section Rounds

variable {α : Type}

/-- The flags of `ckpt_core` in a learning round. -/
def Config.learning (cfg : Config) : Core.Options :=
  { (buildCmd cfg.mode true false).1 with deltaLegacy := cfg.deltaLegacy }

/-- The delta that GET_DIRTY_PAGES drives, not that of ioctl 116. -/
def Config.legacy (cfg : Config) : Bool :=
  cfg.learning.mode = .mainPath ∧ ¬(cfg.learning.useEncryptedIoctl && !cfg.learning.deltaLegacy)

/-- The addresses of the dirty blocks that the driver reports in a learning round, to
`ckpt_core` or to the copy of ioctl 116. -/
def Round.reported (cfg : Config) (r : Round α) : List Nat :=
  match cfg.learning.mode with
  | .strawman | .stunCopy => []
  | .precopyBaseline => r.dirtyStarts r.baselineBytes
  | .mainPath =>
      if cfg.legacy then r.dirtyStarts (r.filtBytes cfg.learning) else r.blocks.map VaRange.first

/-- The file with the dirty addresses after a learning round. -/
def Round.dumpAfter (cfg : Config) (r : Round α) (dump : Option (List Nat)) : Option (List Nat) :=
  match r.failed with
  | some (_, left) => left
  | none => if cfg.legacy ∧ r.reported cfg ≠ [] then some (r.reported cfg) else dump

/-- The addresses in that file after each learning round that succeeds. -/
def reads (cfg : Config) : Option (List Nat) → List (Round α) → List Nat
  | _, [] => []
  | dump, r :: rest =>
      (if r.failed.isNone then (r.dumpAfter cfg dump).getD [] else []) ++
        reads cfg (r.dumpAfter cfg dump) rest

/-- The agent before its first round, with the files that earlier runs left. -/
def State.start (dump : Option (List Nat)) (ranges : List (Nat × Nat)) (images : Images α) :
    State α :=
  ⟨0, false, [], dump, ranges, images⟩

/-- What a learning round does to the classifier and to the dump. -/
structure Learns (cfg : Config) (r : Round α) (s t : State α) : Prop where
  round : t.round = s.round + 1
  dump : t.dump = r.dumpAfter cfg s.dump
  classifier : t.classifier =
    if r.failed.isNone then t.dump.elim s.classifier (classifierUpdate s.classifier)
    else s.classifier
  classified : t.classified = (r.failed.isNone && decide (cfg.learnRounds ≤ s.round + 1))
  ranges : t.classified = true →
    t.ranges = classifierWriteRanges t.classifier (r.table.take cfg.nAllocs)

theorem coreDump_eq (cfg : Config) (r : Round α) (dump : Option (List Nat)) (h : r.failed = none) :
    coreDump cfg.learning true r dump = r.dumpAfter cfg dump := by
  rw [coreDump, Round.dumpAfter, h]
  by_cases hLegacy : cfg.legacy = true
  · have hBoth := hLegacy
    simp only [Config.legacy, decide_eq_true_eq] at hBoth
    simp only [Round.reported, hLegacy, hBoth.1, hBoth.2, if_true, true_and, Bool.false_eq_true,
      not_false_eq_true]
  · have hBoth := hLegacy
    simp only [Config.legacy, decide_eq_true_eq] at hBoth
    rw [if_neg fun hAll => hBoth ⟨hAll.2.1, hAll.2.2.1⟩, if_neg fun hAll => hLegacy hAll.1]

theorem learns_next {cfg : Config} {s : State α} (hClassified : s.classified = false)
    (hRound : s.round < cfg.learnRounds) (r : Round α) : Learns cfg r s (s.next cfg r) := by
  have hLearning : s.isLearning cfg = true := by
    simp only [State.isLearning, hClassified, Bool.not_false, Bool.and_true, Bool.and_eq_true,
      decide_eq_true_eq]
    omega
  have hAdaptive : s.isAdaptive cfg = false := by rw [State.isAdaptive, hClassified]; rfl
  have hOptions : s.options cfg = cfg.learning := by
    rw [State.options, hLearning, hAdaptive, Config.learning]
  have hDumps : (buildCmd cfg.mode true false).2 = true := rfl
  cases hFailed : r.failed with
  | some failed =>
      have hNext : s.next cfg r = { s with round := s.round + 1, dump := failed.2, images := failed.1 } := by
        rw [State.next, hFailed]
      rw [hNext]
      exact ⟨rfl, by rw [Round.dumpAfter, hFailed], by rw [hFailed]; rfl,
        by rw [hFailed]; exact hClassified, fun h => absurd (hClassified.symm.trans h) Bool.false_ne_true⟩
  | none =>
      have hDump : (s.next cfg r).dump = r.dumpAfter cfg s.dump := by
        rw [← coreDump_eq cfg r s.dump hFailed, State.next, hFailed]
        simp only [hOptions, hLearning, hAdaptive, hDumps, if_true]
        split <;> rfl
      refine ⟨?_, hDump, ?_, ?_, ?_⟩
      · rw [State.next, hFailed]
        simp only [hLearning, if_true]
        split <;> rfl
      · rw [hDump, ← coreDump_eq cfg r s.dump hFailed, State.next, hFailed]
        simp only [hOptions, hLearning, hAdaptive, hDumps, if_true, Option.isNone_none]
        split <;> rfl
      · rw [State.next, hFailed]
        simp only [hLearning, if_true, Option.isNone_none, Bool.true_and]
        split
        · rename_i hLast
          exact (decide_eq_true hLast).symm
        · rename_i hMore
          exact hClassified.trans (decide_eq_false hMore).symm
      · rw [State.next, hFailed]
        simp only [hLearning, if_true]
        split
        · exact fun _ => rfl
        · exact fun h => absurd (hClassified.symm.trans h) Bool.false_ne_true

theorem reads_append (cfg : Config) (dump : Option (List Nat)) (first second : List (Round α)) :
    reads cfg dump (first ++ second) =
      reads cfg dump first ++
        reads cfg (first.foldl (fun d r => r.dumpAfter cfg d) dump) second := by
  induction first generalizing dump with
  | nil => rfl
  | cons r rest ih =>
      rw [List.cons_append, reads, ih, reads, List.foldl_cons, List.append_assoc]

/-- On the legacy path each round that succeeds puts what it reports into the file. -/
theorem reported_subset_reads {cfg : Config} (hLegacy : cfg.legacy = true) {rounds : List (Round α)}
    (dump : Option (List Nat)) {r : Round α} (hr : r ∈ rounds) (hOk : r.failed = none) :
    r.reported cfg ⊆ reads cfg dump rounds := by
  induction rounds generalizing dump with
  | nil => cases hr
  | cons first rest ih =>
      rw [reads]
      rcases List.mem_cons.mp hr with rfl | hr
      · intro a ha
        have hDump : r.dumpAfter cfg dump = some (r.reported cfg) := by
          rw [Round.dumpAfter, hOk]
          exact if_pos ⟨hLegacy, List.ne_nil_of_mem ha⟩
        rw [hOk, hDump]
        exact List.mem_append_left _ ha
      · exact fun a ha => List.mem_append_right _ (ih _ hr ha)

/-- On the other paths the rounds that succeed find the file of an earlier run. -/
theorem reads_subset_of_not_legacy {cfg : Config} (hLegacy : cfg.legacy = false)
    {rounds : List (Round α)} (hOk : ∀ r ∈ rounds, r.failed = none) (dump : Option (List Nat)) :
    reads cfg dump rounds ⊆ dump.getD [] := by
  induction rounds with
  | nil => exact List.nil_subset _
  | cons r rest ih =>
      have hDump : r.dumpAfter cfg dump = dump := by
        rw [Round.dumpAfter, hOk r List.mem_cons_self]
        exact if_neg fun hAll => Bool.false_ne_true (hLegacy.symm.trans hAll.1)
      rw [reads, hDump]
      refine List.append_subset.mpr ⟨?_, ih fun r' hr' => hOk r' (List.mem_cons_of_mem r hr')⟩
      split
      · exact List.Subset.refl _
      · exact List.nil_subset _

/-- The classifier holds the first distinct 2 MB pages of the addresses. -/
def Collected (addresses : List Nat) (pc : Classifier) : Prop :=
  pc.map ClassEntry.va = firstDistinct max2mPages (addresses.map chunkOf) ∧ pc.Counted

theorem Collected.update {addresses : List Nat} {pc : Classifier} (h : Collected addresses pc)
    (dump : List Nat) : Collected (addresses ++ dump) (classifierUpdate pc dump) := by
  obtain ⟨hVas, hCounted⟩ := classifierUpdate_vas h.2 dump
  refine ⟨?_, hCounted⟩
  rw [hVas, h.1, firstDistinct, firstDistinct, List.map_append, List.foldl_append]

theorem Learns.collected {cfg : Config} {r : Round α} {s t : State α} (h : Learns cfg r s t)
    {addresses : List Nat} (hBefore : Collected addresses s.classifier) :
    Collected (addresses ++ reads cfg s.dump [r]) t.classifier := by
  rw [h.classifier, h.dump, reads, reads, List.append_nil]
  cases r.failed with
  | some failed => simpa using hBefore
  | none =>
      cases r.dumpAfter cfg s.dump with
      | none => simpa using hBefore
      | some dump => exact hBefore.update dump

/-- The learning rounds before the last one. -/
theorem learns_run {cfg : Config} (rounds : List (Round α)) (s : State α) (addresses : List Nat)
    (hClassified : s.classified = false) (hRound : s.round + rounds.length < cfg.learnRounds)
    (hBefore : Collected addresses s.classifier) :
    ∃ t, execute (fun s r => some (State.next cfg s r)) s rounds = some t ∧
      t.round = s.round + rounds.length ∧ t.classified = false ∧
      t.dump = rounds.foldl (fun d r => r.dumpAfter cfg d) s.dump ∧
      Collected (addresses ++ reads cfg s.dump rounds) t.classifier := by
  induction rounds generalizing s addresses with
  | nil => exact ⟨s, rfl, rfl, hClassified, rfl, by simpa [reads] using hBefore⟩
  | cons r rest ih =>
      rw [List.length_cons] at hRound
      have hStep : Learns cfg r s (s.next cfg r) := learns_next hClassified (by omega) r
      have hNot : (s.next cfg r).classified = false := by
        rw [hStep.classified, decide_eq_false (by omega), Bool.and_false]
      obtain ⟨t, hRun, hRounds, hLearning, hDump, hCollected⟩ :=
        ih (s.next cfg r) _ hNot (by rw [hStep.round]; omega) (hStep.collected hBefore)
      refine ⟨t, hRun, ?_, hLearning, ?_, ?_⟩
      · rw [hRounds, hStep.round, List.length_cons]
        omega
      · rw [hDump, hStep.dump, List.foldl_cons]
      · rw [hStep.dump, List.append_assoc] at hCollected
        rwa [show r :: rest = [r] ++ rest from rfl, reads_append]

/-- The agent does not learn any more. -/
def Settled (cfg : Config) (s : State α) : Prop := s.classified = true ∨ cfg.learnRounds ≤ s.round

theorem Settled.next {cfg : Config} {s : State α} (h : Settled cfg s) (r : Round α) :
    Settled cfg (s.next cfg r) ∧ (s.next cfg r).classified = s.classified ∧
      (s.next cfg r).ranges = s.ranges := by
  have hNot : s.isLearning cfg = false := by
    rw [State.isLearning]
    rcases h with hClassified | hRound
    · rw [hClassified, Bool.not_true, Bool.and_false]
    · rw [decide_eq_false (p := s.round + 1 ≤ cfg.learnRounds) (by omega), Bool.and_false,
        Bool.false_and]
  cases hFailed : r.failed with
  | some failed =>
      have hNext : s.next cfg r =
          { s with round := s.round + 1, dump := failed.2, images := failed.1 } := by
        rw [State.next, hFailed]
      rw [hNext]
      exact ⟨h.imp_right fun hRound => Nat.le_succ_of_le hRound, rfl, rfl⟩
  | none =>
      have hRound : (s.next cfg r).round = s.round + 1 := by
        rw [State.next, hFailed]
        simp only [hNot, Bool.false_eq_true, if_false]
      have hClassified : (s.next cfg r).classified = s.classified := by
        rw [State.next, hFailed]
        simp only [hNot, Bool.false_eq_true, if_false]
      refine ⟨?_, hClassified, ?_⟩
      · rw [Settled, hClassified, hRound]
        exact h.imp_right fun hRound => Nat.le_succ_of_le hRound
      · rw [State.next, hFailed]
        simp only [hNot, Bool.false_eq_true, if_false]

theorem Settled.run {cfg : Config} (rounds : List (Round α)) {s t : State α} (h : Settled cfg s)
    (hRun : execute (fun s r => some (State.next cfg s r)) s rounds = some t) :
    t.classified = s.classified ∧ t.ranges = s.ranges := by
  induction rounds generalizing s with
  | nil =>
      cases hRun
      exact ⟨rfl, rfl⟩
  | cons r rest ih =>
      obtain ⟨hSettled, hClassified, hRanges⟩ := h.next r
      obtain ⟨hLater, hKept⟩ := ih hSettled hRun
      exact ⟨hLater.trans hClassified, hKept.trans hRanges⟩

/-- The learning rounds that succeed. -/
def learnt (cfg : Config) (rounds : List (Round α)) : List (Round α) :=
  (rounds.take cfg.learnRounds).filter fun r => r.failed.isNone

/-- The entries of the allocation table that the agent passes to the classifier. -/
def learnedTable (cfg : Config) (rounds : List (Round α)) : List GateAlloc :=
  (((rounds.take cfg.learnRounds).getLast?).elim [] Round.table).take cfg.nAllocs

/-- The address lies in an allocation of the table. -/
def Round.Tracked (r : Round α) (a : Nat) : Prop :=
  ∃ e ∈ r.table, e.va ≤ a * pageSize ∧ a * pageSize < e.va + e.size

/-- The ranges cover each block reported in a tracked allocation, and nothing but blocks
reported in these rounds and the allocations that are not H2D. -/
structure Exact (cfg : Config) (rounds : List (Round α)) (ranges : List (Nat × Nat)) : Prop where
  covers : ∀ r ∈ learnt cfg rounds, ∀ a ∈ r.reported cfg, r.Tracked a →
    ∀ p, chunkOf p = chunkOf a → InRanges ranges p
  fresh : ∀ p, InRanges ranges p →
    chunkOf p ∈ gpuOnlyPages (learnedTable cfg rounds) ∨
      ∃ r ∈ learnt cfg rounds, ∃ a ∈ r.reported cfg, chunkOf a = chunkOf p

/-- Whenever the agent has written the ranges, they are exact. -/
def Learned (cfg : Config) (s : State α) (rounds : List (Round α)) : Prop :=
  ∀ t, execute (fun s r => some (State.next cfg s r)) s rounds = some t →
    t.classified = true → Exact cfg rounds t.ranges

/-- The last learning round takes place and succeeds. -/
def Finished (cfg : Config) (rounds : List (Round α)) : Prop :=
  cfg.learnRounds ≤ rounds.length ∧
    ∃ r, (rounds.take cfg.learnRounds).getLast? = some r ∧ r.failed = none

/-- The 2 MB pages for which the classifier has room, of the addresses in the dump file
after each learning round that succeeds. -/
def heardPages (cfg : Config) (dump : Option (List Nat)) (rounds : List (Round α)) : List Nat :=
  firstDistinct max2mPages ((reads cfg dump (rounds.take cfg.learnRounds)).map chunkOf)

/-- The pages of the allocations that are not H2D, as far as there is room for them. -/
def otherPages (cfg : Config) (dump : Option (List Nat)) (rounds : List (Round α)) : List Nat :=
  firstDistinct max2mPages
    ((gpuOnlyPages (learnedTable cfg rounds)).filter (· ∉ heardPages cfg dump rounds))

/-- Each block reported in a tracked allocation reaches the file, or lies in an allocation
that is not H2D, and what an older file holds was reported or lies in such an allocation. -/
structure Heard (cfg : Config) (dump : Option (List Nat)) (rounds : List (Round α)) : Prop where
  reaches : ∀ r ∈ learnt cfg rounds, ∀ a ∈ r.reported cfg, r.Tracked a →
    chunkOf a ∈ heardPages cfg dump rounds ∨ chunkOf a ∈ otherPages cfg dump rounds
  fresh : ∀ va ∈ heardPages cfg dump rounds,
    va ∈ gpuOnlyPages (learnedTable cfg rounds) ∨
      ∃ r ∈ learnt cfg rounds, ∃ a ∈ r.reported cfg, chunkOf a = va

/-- The state before the last learning round: the run goes through that round, which takes
what the rounds before it collected. -/
theorem last_learning {cfg : Config} {rounds : List (Round α)} {last : Round α}
    (hLength : cfg.learnRounds ≤ rounds.length)
    (hLast : (rounds.take cfg.learnRounds).getLast? = some last)
    (dump : Option (List Nat)) (ranges : List (Nat × Nat)) (images : Images α) :
    ∃ s : State α, s.round + 1 = cfg.learnRounds ∧ Learns cfg last s (s.next cfg last) ∧
      Collected (reads cfg dump (rounds.take cfg.learnRounds)) (s.next cfg last).classifier ∧
      execute (fun s r => some (State.next cfg s r)) (State.start dump ranges images) rounds =
        execute (fun s r => some (State.next cfg s r)) (s.next cfg last)
          (rounds.drop cfg.learnRounds) := by
  obtain ⟨before, hTake⟩ := List.getLast?_eq_some_iff.mp hLast
  have hCount : before.length + 1 = cfg.learnRounds := by
    have := congrArg List.length hTake
    rw [List.length_take, List.length_append, List.length_singleton] at this
    omega
  have hStart : Collected [] (State.start dump ranges images).classifier :=
    ⟨rfl, fun e he => absurd he List.not_mem_nil⟩
  obtain ⟨s, hRun, hRound, hClassified, hDump, hCollected⟩ :=
    learns_run before (State.start dump ranges images) [] rfl
      (by change 0 + before.length < cfg.learnRounds; omega) hStart
  have hRoundEq : s.round + 1 = cfg.learnRounds := by
    rw [hRound, ← hCount]
    exact congrArg (· + 1) (Nat.zero_add _)
  have hStep : Learns cfg last s (s.next cfg last) := learns_next hClassified (by omega) last
  refine ⟨s, hRoundEq, hStep, ?_, ?_⟩
  · have hVas := hStep.collected hCollected
    rw [List.nil_append, hDump] at hVas
    rw [hTake, reads_append]
    exact hVas
  · conv_lhs => rw [← List.take_append_drop cfg.learnRounds rounds, hTake, List.append_assoc]
    rw [execute_append, hRun]
    rfl

/-- The ranges that the agent writes at the end of learning. -/
theorem ranges_of_finished {cfg : Config} {rounds : List (Round α)} (h : Finished cfg rounds)
    (dump : Option (List Nat)) (ranges : List (Nat × Nat)) (images : Images α) :
    ∃ t, execute (fun s r => some (State.next cfg s r)) (State.start dump ranges images) rounds =
        some t ∧ t.classified = true ∧
      ∀ p, InRanges t.ranges p ↔
        chunkOf p ∈ heardPages cfg dump rounds ∨ chunkOf p ∈ otherPages cfg dump rounds := by
  obtain ⟨hLength, last, hLast, hOk⟩ := h
  obtain ⟨s, hRound, hStep, hAll, hThrough⟩ := last_learning hLength hLast dump ranges images
  have hDone : (s.next cfg last).classified = true := by
    rw [hStep.classified, hOk, decide_eq_true (by omega)]
    rfl
  obtain ⟨t, hAfter⟩ : ∃ t, execute (fun s r => some (State.next cfg s r)) (s.next cfg last)
      (rounds.drop cfg.learnRounds) = some t := execute_total _ _
  obtain ⟨hLater, hKept⟩ := Settled.run _ (.inl hDone) hAfter
  refine ⟨t, hThrough.trans hAfter, hLater.trans hDone, fun p => ?_⟩
  · have hTable : (learnedTable cfg rounds) = last.table.take cfg.nAllocs := by
      rw [learnedTable, hLast]
      rfl
    rw [hKept, hStep.ranges hDone, inRanges_classifierWriteRanges, dynamicVas_eq hAll.2, hAll.1,
      ← hTable]
    change (∃ va ∈ heardPages cfg dump rounds ++ otherPages cfg dump rounds, _) ↔ _
    rw [← List.mem_append]
    have hAligned : ∀ va ∈ heardPages cfg dump rounds ++ otherPages cfg dump rounds,
        va % blockPages = 0 := by
      intro va hva
      rcases List.mem_append.mp hva with hva | hva
      · rcases mem_foldl_insertNew hva with hva | hva
        · cases hva
        · obtain ⟨a, -, rfl⟩ := List.mem_map.mp hva
          exact chunkOf_mod a
      · rcases mem_foldl_insertNew hva with hva | hva
        · cases hva
        · exact gpuOnlyPages_mod (List.mem_of_mem_filter hva)
    constructor
    · rintro ⟨va, hva, hIn⟩
      rwa [← (chunkOf_eq_iff (hAligned va hva) p).mp hIn]
    · exact fun hva => ⟨_, hva, (chunkOf_eq_iff (chunkOf_mod p) p).mpr rfl⟩

/-- When the last learning round fails, or does not take place, no ranges are written. -/
theorem not_classified {cfg : Config} {rounds : List (Round α)} (h : ¬Finished cfg rounds)
    {dump : Option (List Nat)} {ranges : List (Nat × Nat)} {images : Images α} {t : State α}
    (hRun : execute (fun s r => some (State.next cfg s r)) (State.start dump ranges images) rounds =
      some t) : t.classified = false := by
  have hStart : Collected [] (State.start dump ranges images).classifier :=
    ⟨rfl, fun e he => absurd he List.not_mem_nil⟩
  by_cases hShort : rounds.length < cfg.learnRounds
  · obtain ⟨t', hRun', -, hClassified, -⟩ :=
      learns_run rounds (State.start dump ranges images) [] rfl
        (by change 0 + rounds.length < cfg.learnRounds; omega) hStart
    cases hRun.symm.trans hRun'
    exact hClassified
  · cases hLast : (rounds.take cfg.learnRounds).getLast? with
    | none =>
        have hNone : cfg.learnRounds ≤ (State.start dump ranges images).round := by
          rw [List.getLast?_eq_none_iff] at hLast
          have := congrArg List.length hLast
          rw [List.length_take, List.length_nil] at this
          omega
        exact (Settled.run rounds (.inr hNone) hRun).1
    | some last =>
        obtain ⟨s, hRound, hStep, -, hThrough⟩ :=
          last_learning (by omega) hLast dump ranges images
        have hFailed : last.failed.isNone = false := by
          rw [Option.isNone_eq_false_iff, Option.isSome_iff_ne_none]
          exact fun hOk => h ⟨by omega, last, hLast, hOk⟩
        have hNot : (s.next cfg last).classified = false := by
          rw [hStep.classified, hFailed, Bool.false_and]
        rw [hThrough] at hRun
        have hSettled : Settled cfg (s.next cfg last) := .inr (by rw [hStep.round]; omega)
        exact (Settled.run _ hSettled hRun).1.trans hNot

/-- The ranges of the adaptive rounds are exact if and only if each round hands on what
it reports, and finds nothing else in the dump file. -/
theorem learned_iff (cfg : Config) (dump : Option (List Nat)) (ranges : List (Nat × Nat))
    (images : Images α) (rounds : List (Round α)) :
    Learned cfg (State.start dump ranges images) rounds ↔
      (Finished cfg rounds → Heard cfg dump rounds) := by
  by_cases hFinished : Finished cfg rounds
  · obtain ⟨t, hRun, hClassified, hRanges⟩ := ranges_of_finished hFinished dump ranges images
    have hExact : Learned cfg (State.start dump ranges images) rounds ↔
        Exact cfg rounds t.ranges := by
      constructor
      · exact fun h => h t hRun hClassified
      · intro h t' hRun' _
        cases hRun.symm.trans hRun'
        exact h
    rw [hExact]
    constructor
    · intro h _
      refine ⟨fun r hr a ha hTracked => (hRanges a).mp (h.covers r hr a ha hTracked a rfl), ?_⟩
      intro va hva
      have hChunk : chunkOf va = va := by
        rcases mem_foldl_insertNew hva with hva | hva
        · cases hva
        · obtain ⟨a, -, rfl⟩ := List.mem_map.mp hva
          exact chunkOf_chunkOf a
      have hFresh := h.fresh va ((hRanges va).mpr (.inl (hChunk.symm ▸ hva)))
      rwa [hChunk] at hFresh
    · intro h
      obtain ⟨hReaches, hFresh⟩ := h hFinished
      refine ⟨?_, ?_⟩
      · intro r hr a ha hTracked p hp
        rw [hRanges, hp]
        exact hReaches r hr a ha hTracked
      · intro p hp
        rcases (hRanges p).mp hp with hHeard | hOther
        · exact hFresh _ hHeard
        · rcases mem_foldl_insertNew hOther with hOther | hOther
          · cases hOther
          · exact .inl (List.mem_of_mem_filter hOther)
  · refine iff_of_true (fun t hRun hClassified => ?_) fun h => absurd h hFinished
    exact absurd ((not_classified hFinished hRun).symm.trans hClassified) Bool.false_ne_true

end Rounds

/-- The weights, written once in a learning round. -/
def dirtyWeights : Round Unit := { weightsAndCache with blocks := [⟨512, 512, blockPages_pos⟩] }

/-- The copy of ioctl 116 writes no dump, and the block of the weights is not learned. -/
theorem not_learned_dirtyWeights :
    ¬Learned learnOnce (State.start none [] ⟨fun _ => none, fun _ => none, none⟩)
      [dirtyWeights] := by
  intro h
  have hExact := h _ rfl rfl
  have hCovered : InRanges (freshAgent.next learnOnce dirtyWeights).ranges 512 :=
    hExact.covers dirtyWeights List.mem_cons_self 512 (by decide)
      ⟨_, List.mem_cons_self, by decide, by decide⟩ 512 rfl
  exact weightsAndCache_lost hCovered

end FlashCkpt.Agent
