import Mathlib.Data.Finset.Card
import Mathlib.Data.List.Sort
import FlashCkpt.Static.AllocTable

/-! The dirty table of the precopy baseline: `ckpt_core` rounds the addresses of the
dirty blocks to 2 MB, keeps the chunks inside recorded allocations, merges those that
follow each other and hands them to the application in a table of the gate. -/
namespace FlashCkpt.Core

open Static

def chunkBytes : Nat := 2 * 1024 * 1024

/-- A dirty va_block: it lies within 2 MB and may be shorter. -/
structure DirtyBlock where
  start : Nat
  size : Nat
  pos : 0 < size
  within : start % chunkBytes + size ≤ chunkBytes

def DirtyBlock.Has (b : DirtyBlock) (x : Nat) : Prop := b.start ≤ x ∧ x < b.start + b.size

instance (b : DirtyBlock) (x : Nat) : Decidable (b.Has x) := inferInstanceAs (Decidable (_ ∧ _))

/-- `addr & ~(CHUNK_2MB - 1)`. -/
def roundChunk (a : Nat) : Nat := a / chunkBytes * chunkBytes

/-- The loop that drops repeated elements of a sorted array. -/
def dedupInPlace : List Nat → List Nat
  | [] => []
  | [a] => [a]
  | a :: b :: rest => if a = b then dedupInPlace (b :: rest) else a :: dedupInPlace (b :: rest)

/-- Whether the chunk lies inside one entry of the allocation table. -/
def inRange (table : List AllocEntry) (va : Nat) : Bool :=
  table.any fun e => e.va ≤ va && va + chunkBytes ≤ e.va + e.size

/-- The open run, and the entries written to the table so far. -/
structure RunState where
  cur : Option (Nat × Nat)
  out : List (Nat × Nat)

/-- An entry of the table: address and size. -/
def emit (out : List (Nat × Nat)) (run : Nat × Nat) : List (Nat × Nat) :=
  if out.length < Agent.gateDirtyMax then out ++ [(run.1, run.2 - run.1)] else out

def runStep (table : List AllocEntry) (s : RunState) (va : Nat) : RunState :=
  if inRange table va then
    match s.cur with
    | none => ⟨some (va, va + chunkBytes), s.out⟩
    | some run =>
        if va = run.2 then ⟨some (run.1, va + chunkBytes), s.out⟩
        else ⟨some (va, va + chunkBytes), emit s.out run⟩
  else s

def closeRun (s : RunState) : List (Nat × Nat) :=
  match s.cur with
  | none => s.out
  | some run => emit s.out run

/-- Step [5] of the precopy baseline, from the addresses of GET_DIRTY_PAGES on. -/
def dirtyTable (table : List AllocEntry) (addrs : List Nat) : List (Nat × Nat) :=
  closeRun ((dedupInPlace ((addrs.map roundChunk).mergeSort fun a b => a ≤ b)).foldl
    (runStep table) ⟨none, []⟩)

/-- The entries are sorted, apart and not adjacent, and cover every dirty byte of every
live allocation. -/
structure TableExact (table : List AllocEntry) (blocks : List DirtyBlock)
    (ranges : List (Nat × Nat)) : Prop where
  apart : ranges.Pairwise fun a b => a.1 + a.2 < b.1
  covers : ∀ b ∈ blocks, ∀ e ∈ table, e.freed = false → ∀ x, b.Has x → e.Covers x →
    ∃ r ∈ ranges, r.1 ≤ x ∧ x < r.1 + r.2

/-- The chunks that are kept. -/
def keptChunks (table : List AllocEntry) (blocks : List DirtyBlock) : Finset Nat :=
  ((blocks.map fun b => roundChunk b.start).filter (inRange table)).toFinset

/-- How many runs of kept chunks begin up to this one. -/
def runNumber (kept : Finset Nat) (c : Nat) : Nat :=
  (kept.filter fun k => k ≤ c ∧ ∀ j ∈ kept, j + chunkBytes ≠ k).card

/-- Each dirty block of a live allocation has its 2 MB inside one of the allocations that
were counted, in one of the first 8187 runs of such chunks. -/
def Representable (table : List AllocEntry) (nAllocs : Nat) (blocks : List DirtyBlock) : Prop :=
  ∀ b ∈ blocks, ∀ e ∈ table, e.freed = false → (∃ x, b.Has x ∧ e.Covers x) →
    inRange (table.take nAllocs) (roundChunk b.start) = true ∧
      runNumber (keptChunks (table.take nAllocs) blocks) (roundChunk b.start) ≤ Agent.gateDirtyMax

section Dedup

theorem mem_dedupInPlace (a : Nat) (xs : List Nat) : a ∈ dedupInPlace xs ↔ a ∈ xs := by
  induction xs using dedupInPlace.induct with
  | case1 => rfl
  | case2 b => rfl
  | case3 b rest ih =>
      rw [dedupInPlace, if_pos rfl, ih]
      simp
  | case4 b c rest hNe ih =>
      rw [dedupInPlace, if_neg hNe, List.mem_cons, ih]
      exact List.mem_cons.symm

theorem dedupInPlace_sorted {xs : List Nat} (h : xs.Pairwise (· ≤ ·)) :
    (dedupInPlace xs).Pairwise (· < ·) := by
  induction xs using dedupInPlace.induct with
  | case1 => exact List.Pairwise.nil
  | case2 b => exact List.pairwise_singleton _ _
  | case3 b rest ih =>
      rw [dedupInPlace, if_pos rfl]
      exact ih (List.pairwise_cons.mp h).2
  | case4 b c rest hNe ih =>
      obtain ⟨hHead, hTail⟩ := List.pairwise_cons.mp h
      rw [dedupInPlace, if_neg hNe]
      refine List.pairwise_cons.mpr ⟨fun d hd => ?_, ih hTail⟩
      have hSecond : b < c := Nat.lt_of_le_of_ne (hHead c List.mem_cons_self) hNe
      rcases List.mem_cons.mp ((mem_dedupInPlace d _).mp hd) with rfl | hRest
      · exact hSecond
      · exact Nat.lt_of_lt_of_le hSecond ((List.pairwise_cons.mp hTail).1 d hRest)

end Dedup

section Runs

/-- The runs from an open one on, without regard to the room for them. -/
def runsFrom : (start stop : Nat) → List Nat → List (Nat × Nat)
  | start, stop, [] => [(start, stop)]
  | start, stop, a :: rest =>
      if a = stop then runsFrom start (a + chunkBytes) rest
      else (start, stop) :: runsFrom a (a + chunkBytes) rest

/-- A run as the table has it. -/
def toEntry (run : Nat × Nat) : Nat × Nat := (run.1, run.2 - run.1)

/-- How often a new run begins up to a chunk. -/
def breaks : (stop : Nat) → List Nat → (c : Nat) → Nat
  | _, [], _ => 0
  | stop, a :: rest, c =>
      if c < a then 0 else (if a = stop then 0 else 1) + breaks (a + chunkBytes) rest c

/-- Chunks in the order of their addresses. -/
abbrev Spaced (chunks : List Nat) : Prop := chunks.Pairwise fun a b => a + chunkBytes ≤ b

theorem emit_eq (out : List (Nat × Nat)) (run : Nat × Nat) (later : List (Nat × Nat)) :
    emit out run ++ later.take (Agent.gateDirtyMax - (emit out run).length) =
      out ++ (toEntry run :: later).take (Agent.gateDirtyMax - out.length) := by
  rw [emit]
  split
  · rename_i hRoom
    rw [List.length_append, List.length_singleton, List.append_assoc]
    congr 1
    rw [show Agent.gateDirtyMax - out.length = Agent.gateDirtyMax - (out.length + 1) + 1 by omega,
      List.take_succ_cons]
    rfl
  · rename_i hFull
    rw [show Agent.gateDirtyMax - out.length = 0 by omega]
    rfl

/-- The loop writes the runs as long as there is room in the table. -/
theorem foldl_runStep {table : List AllocEntry} (chunks : List Nat)
    (hKept : ∀ c ∈ chunks, inRange table c = true) (start stop : Nat) (out : List (Nat × Nat)) :
    closeRun (chunks.foldl (runStep table) ⟨some (start, stop), out⟩) =
      out ++ ((runsFrom start stop chunks).map toEntry).take (Agent.gateDirtyMax - out.length) := by
  induction chunks generalizing start stop out with
  | nil =>
      have hLast := emit_eq out (start, stop) []
      rw [List.take_nil, List.append_nil] at hLast
      exact hLast
  | cons a rest ih =>
      have hRest : ∀ c ∈ rest, inRange table c = true := fun c hc =>
        hKept c (List.mem_cons_of_mem a hc)
      rw [List.foldl_cons, runStep, if_pos (hKept a List.mem_cons_self), runsFrom]
      dsimp only
      split
      · rw [ih hRest]
      · rw [ih hRest, emit_eq, List.map_cons]

theorem breaks_of_lt {stop : Nat} {chunks : List Nat} {c : Nat} (h : ∀ a ∈ chunks, c < a) :
    breaks stop chunks c = 0 := by
  cases chunks with
  | nil => rfl
  | cons a rest => exact if_pos (h a List.mem_cons_self)

/-- The first runs cover what lies in the chunks up to that many breaks. -/
theorem runsFrom_take_covers {start stop : Nat} (hStart : start ≤ stop) {chunks : List Nat}
    (hSpaced : Spaced chunks) (m x : Nat) :
    (∃ r ∈ (runsFrom start stop chunks).take m, r.1 ≤ x ∧ x < r.2) ↔
      (0 < m ∧ start ≤ x ∧ x < stop) ∨
        ∃ c ∈ chunks, c ≤ x ∧ x < c + chunkBytes ∧ breaks stop chunks c < m := by
  induction chunks generalizing start stop m with
  | nil =>
      cases m with
      | zero => simp
      | succ m => simp [runsFrom]
  | cons a rest ih =>
      obtain ⟨hHead, hTail⟩ := List.pairwise_cons.mp hSpaced
      have hPos : 0 < chunkBytes := by decide
      have hFirst : breaks (a + chunkBytes) rest a = 0 :=
        breaks_of_lt fun b hb => by
          have := hHead b hb
          omega
      have hLater : ∀ c ∈ rest, ¬c < a := fun c hc => by
        have := hHead c hc
        omega
      have hBreaks : ∀ c ∈ rest, breaks stop (a :: rest) c =
          (if a = stop then 0 else 1) + breaks (a + chunkBytes) rest c :=
        fun c hc => if_neg (hLater c hc)
      have hBreak : breaks stop (a :: rest) a = if a = stop then 0 else 1 := by
        rw [breaks, if_neg (Nat.lt_irrefl a), hFirst, Nat.add_zero]
      rw [runsFrom, List.exists_mem_cons_iff, hBreak]
      by_cases hNext : a = stop
      · rw [if_pos hNext, ih (by omega) hTail]
        have hRest : (∃ c ∈ rest, c ≤ x ∧ x < c + chunkBytes ∧ breaks stop (a :: rest) c < m) ↔
            ∃ c ∈ rest, c ≤ x ∧ x < c + chunkBytes ∧ breaks (a + chunkBytes) rest c < m := by
          refine exists_congr fun c => and_congr_right fun hc => ?_
          rw [hBreaks c hc, if_pos hNext, Nat.zero_add]
        rw [hRest, if_pos hNext, ← or_assoc]
        refine or_congr_left ⟨fun h => ?_, fun h => ?_⟩
        · omega
        · omega
      · rw [if_neg hNext, if_neg hNext]
        cases m with
        | zero => simp
        | succ m =>
            have hRest : (∃ c ∈ rest, c ≤ x ∧ x < c + chunkBytes ∧
                breaks stop (a :: rest) c < m + 1) ↔
                ∃ c ∈ rest, c ≤ x ∧ x < c + chunkBytes ∧ breaks (a + chunkBytes) rest c < m := by
              refine exists_congr fun c => and_congr_right fun hc => ?_
              rw [hBreaks c hc, if_neg hNext]
              omega
            rw [hRest, List.take_succ_cons, List.exists_mem_cons_iff, ih (Nat.le_add_right a _) hTail]
            refine or_congr ⟨fun h => ⟨Nat.succ_pos m, h⟩, And.right⟩ (or_congr_left ?_)
            omega

/-- Runs are apart from each other. -/
theorem runsFrom_apart {start stop : Nat} {chunks : List Nat} (hAfter : ∀ c ∈ chunks, stop ≤ c)
    (hSpaced : Spaced chunks) :
    (∀ r ∈ runsFrom start stop chunks, start ≤ stop → start ≤ r.1 ∧ r.1 ≤ r.2) ∧
      (runsFrom start stop chunks).Pairwise fun a b => a.2 < b.1 := by
  induction chunks generalizing start stop with
  | nil => simp [runsFrom]
  | cons a rest ih =>
      obtain ⟨hHead, hTail⟩ := List.pairwise_cons.mp hSpaced
      have hStop : stop ≤ a := hAfter a List.mem_cons_self
      have hPos : 0 < chunkBytes := by decide
      rw [runsFrom]
      split
      · rename_i hNext
        obtain ⟨hBounds, hApart⟩ := @ih start (a + chunkBytes) hHead hTail
        exact ⟨fun r hr hLe => hBounds r hr (by omega), hApart⟩
      · rename_i hNext
        obtain ⟨hBounds, hApart⟩ := @ih a (a + chunkBytes) hHead hTail
        refine ⟨fun r hr hLe => ?_, List.pairwise_cons.mpr ⟨fun r hr => ?_, hApart⟩⟩
        · rcases List.mem_cons.mp hr with rfl | hr
          · exact ⟨Nat.le_refl _, hLe⟩
          · have := hBounds r hr (by omega)
            omega
        · have := hBounds r hr (by omega)
          dsimp only
          omega

/-- The breaks are the chunks without a predecessor. -/
theorem length_filter_breaks (before : List Nat) (p : Nat) (chunks : List Nat) (c : Nat)
    (hSpaced : Spaced (before ++ p :: chunks)) :
    (chunks.filter fun k => decide (k ≤ c ∧
      ∀ j ∈ before ++ p :: chunks, j + chunkBytes ≠ k)).length = breaks (p + chunkBytes) chunks c := by
  induction chunks generalizing before p with
  | nil => rfl
  | cons a rest ih =>
      have hPos : 0 < chunkBytes := by decide
      have hAll : before ++ p :: a :: rest = (before ++ [p]) ++ a :: rest := by simp
      obtain ⟨hBefore, hFrom, hAcross⟩ := List.pairwise_append.mp hSpaced
      obtain ⟨hP, hTail⟩ := List.pairwise_cons.mp hFrom
      obtain ⟨hA, -⟩ := List.pairwise_cons.mp hTail
      have hPA := hP a List.mem_cons_self
      have hAlone : (∀ j ∈ before ++ p :: a :: rest, j + chunkBytes ≠ a) ↔ a ≠ p + chunkBytes := by
        constructor
        · intro h hSame
          exact h p (by simp) hSame.symm
        · intro hNe j hj
          rcases List.mem_append.mp hj with hj | hj
          · have := hAcross j hj p List.mem_cons_self
            omega
          · rcases List.mem_cons.mp hj with rfl | hj
            · exact fun hSame => hNe hSame.symm
            · rcases List.mem_cons.mp hj with rfl | hj
              · omega
              · have := hA j hj
                omega
      rw [breaks]
      by_cases hLow : c < a
      · rw [if_pos hLow, List.length_eq_zero_iff, List.filter_eq_nil_iff]
        intro k hk
        rw [decide_eq_true_eq]
        rintro ⟨hLe, -⟩
        rcases List.mem_cons.mp hk with rfl | hk
        · omega
        · have := hA k hk
          omega
      · have hRest := ih (before ++ [p]) a (hAll ▸ hSpaced)
        rw [← hAll] at hRest
        rw [if_neg hLow, ← hRest, List.filter_cons]
        by_cases hNext : a = p + chunkBytes
        · rw [if_pos hNext, Nat.zero_add, if_neg]
          rw [decide_eq_true_eq]
          exact fun h => hAlone.mp h.2 hNext
        · rw [if_neg hNext, if_pos, List.length_cons, Nat.add_comm]
          exact decide_eq_true ⟨by omega, hAlone.mpr hNext⟩

/-- The number of the run a chunk is in, counted along the sorted list. -/
theorem runNumber_eq {first : Nat} {rest : List Nat} (hSpaced : Spaced (first :: rest)) {c : Nat}
    (hc : first ≤ c) :
    runNumber (first :: rest).toFinset c = 1 + breaks (first + chunkBytes) rest c := by
  have hPos : 0 < chunkBytes := by decide
  have hNodup : (first :: rest).Nodup := hSpaced.imp fun {a b} h hSame => by omega
  have hFirst : ∀ j ∈ first :: rest, j + chunkBytes ≠ first := by
    intro j hj
    rcases List.mem_cons.mp hj with rfl | hj
    · omega
    · have := (List.pairwise_cons.mp hSpaced).1 j hj
      omega
  have hCard : runNumber (first :: rest).toFinset c = ((first :: rest).filter fun k =>
      decide (k ≤ c ∧ ∀ j ∈ first :: rest, j + chunkBytes ≠ k)).length := by
    rw [runNumber, ← List.toFinset_card_of_nodup (hNodup.filter _), List.toFinset_filter]
    simp only [List.mem_toFinset, decide_eq_true_eq]
  have hBreaks := length_filter_breaks [] first rest c (by simpa using hSpaced)
  rw [List.nil_append] at hBreaks
  rw [hCard, List.filter_cons, if_pos (decide_eq_true ⟨hc, hFirst⟩), List.length_cons, hBreaks,
    Nat.add_comm]

end Runs

section Table

variable (table : List AllocEntry)

/-- The chunks in the order in which the loop takes them. -/
def sortedChunks (addrs : List Nat) : List Nat :=
  (dedupInPlace ((addrs.map roundChunk).mergeSort fun a b => a ≤ b)).filter (inRange table)

theorem mem_sortedChunks (addrs : List Nat) (c : Nat) :
    c ∈ sortedChunks table addrs ↔ (∃ a ∈ addrs, roundChunk a = c) ∧ inRange table c = true := by
  rw [sortedChunks, List.mem_filter, mem_dedupInPlace, List.mem_mergeSort, List.mem_map]

/-- Rounded addresses that contain the same byte are equal. -/
theorem roundChunk_unique {a b x : Nat} (ha : roundChunk a ≤ x ∧ x < roundChunk a + chunkBytes)
    (hb : roundChunk b ≤ x ∧ x < roundChunk b + chunkBytes) : roundChunk a = roundChunk b := by
  simp only [roundChunk, chunkBytes] at *
  omega

theorem sortedChunks_spaced (addrs : List Nat) : Spaced (sortedChunks table addrs) := by
  have hSorted : ((addrs.map roundChunk).mergeSort fun a b => a ≤ b).Pairwise (· ≤ ·) :=
    List.pairwise_mergeSort' _ _
  refine ((dedupInPlace_sorted hSorted).filter (inRange table)).imp_of_mem fun {a b} ha hb hLt => ?_
  obtain ⟨⟨a', -, rfl⟩, -⟩ := (mem_sortedChunks table addrs a).mp ha
  obtain ⟨⟨b', -, rfl⟩, -⟩ := (mem_sortedChunks table addrs b).mp hb
  simp only [roundChunk, chunkBytes] at *
  omega

theorem foldl_filter_runStep (chunks : List Nat) (s : RunState) :
    chunks.foldl (runStep table) s = (chunks.filter (inRange table)).foldl (runStep table) s := by
  induction chunks generalizing s with
  | nil => rfl
  | cons a rest ih =>
      rw [List.filter_cons]
      split
      · rw [List.foldl_cons, List.foldl_cons, ih]
      · rename_i hOut
        rw [List.foldl_cons, runStep, if_neg hOut, ih]

/-- The runs of the kept chunks. -/
def runs : List Nat → List (Nat × Nat)
  | [] => []
  | a :: rest => runsFrom a (a + chunkBytes) rest

theorem dirtyTable_eq (addrs : List Nat) :
    dirtyTable table addrs =
      ((runs (sortedChunks table addrs)).map toEntry).take Agent.gateDirtyMax := by
  have hKept : ∀ c ∈ sortedChunks table addrs, inRange table c = true := fun c hc =>
    ((mem_sortedChunks table addrs c).mp hc).2
  rw [dirtyTable, foldl_filter_runStep]
  change closeRun ((sortedChunks table addrs).foldl (runStep table) ⟨none, []⟩) = _
  cases hChunks : sortedChunks table addrs with
  | nil => rfl
  | cons a rest =>
      rw [hChunks] at hKept
      rw [List.foldl_cons, runStep, if_pos (hKept a List.mem_cons_self)]
      dsimp only
      rw [foldl_runStep rest fun c hc => hKept c (List.mem_cons_of_mem a hc)]
      rfl

theorem runs_bounds (addrs : List Nat) :
    (∀ r ∈ runs (sortedChunks table addrs), r.1 ≤ r.2) ∧
      (runs (sortedChunks table addrs)).Pairwise fun a b => a.2 < b.1 := by
  have hSpaced := sortedChunks_spaced table addrs
  cases hChunks : sortedChunks table addrs with
  | nil => exact ⟨fun r hr => absurd hr List.not_mem_nil, List.Pairwise.nil⟩
  | cons a rest =>
      rw [hChunks] at hSpaced
      obtain ⟨hHead, hTail⟩ := List.pairwise_cons.mp hSpaced
      obtain ⟨hBounds, hApart⟩ := @runsFrom_apart a (a + chunkBytes) rest hHead hTail
      exact ⟨fun r hr => (hBounds r hr (Nat.le_add_right a _)).2, hApart⟩

theorem dirtyTable_apart (addrs : List Nat) :
    (dirtyTable table addrs).Pairwise fun a b => a.1 + a.2 < b.1 := by
  obtain ⟨hBounds, hApart⟩ := runs_bounds table addrs
  rw [dirtyTable_eq]
  refine (List.pairwise_map.mpr (hApart.imp_of_mem fun {a b} ha _ hLt => ?_)).take
  have := hBounds a ha
  simp only [toEntry]
  omega

/-- The table covers the chunks of its first runs. -/
theorem dirtyTable_covers (addrs : List Nat) (x : Nat) :
    (∃ r ∈ dirtyTable table addrs, r.1 ≤ x ∧ x < r.1 + r.2) ↔
      ∃ c ∈ sortedChunks table addrs, c ≤ x ∧ x < c + chunkBytes ∧
        runNumber (sortedChunks table addrs).toFinset c ≤ Agent.gateDirtyMax := by
  have hEntry : (∃ r ∈ dirtyTable table addrs, r.1 ≤ x ∧ x < r.1 + r.2) ↔
      ∃ r ∈ (runs (sortedChunks table addrs)).take Agent.gateDirtyMax, r.1 ≤ x ∧ x < r.2 := by
    rw [dirtyTable_eq, ← List.map_take]
    constructor
    · rintro ⟨r, hr, hLow, hHigh⟩
      obtain ⟨run, hRun, rfl⟩ := List.mem_map.mp hr
      have := (runs_bounds table addrs).1 run (List.mem_of_mem_take hRun)
      simp only [toEntry] at hLow hHigh
      exact ⟨run, hRun, hLow, by omega⟩
    · rintro ⟨run, hRun, hLow, hHigh⟩
      have := (runs_bounds table addrs).1 run (List.mem_of_mem_take hRun)
      exact ⟨_, List.mem_map_of_mem hRun, hLow, by simp only [toEntry]; omega⟩
  rw [hEntry]
  have hSpaced := sortedChunks_spaced table addrs
  generalize sortedChunks table addrs = chunks at hSpaced ⊢
  cases chunks with
  | nil => simp [runs]
  | cons a rest =>
      obtain ⟨hHead, hTail⟩ := List.pairwise_cons.mp hSpaced
      have hPos : 0 < chunkBytes := by decide
      have hMax : 0 < Agent.gateDirtyMax := by decide
      have hFirst : breaks (a + chunkBytes) rest a = 0 := breaks_of_lt fun b hb => by
        have := hHead b hb
        omega
      rw [runs, runsFrom_take_covers (Nat.le_add_right a _) hTail, List.exists_mem_cons_iff,
        runNumber_eq hSpaced (Nat.le_refl a), hFirst]
      refine or_congr ?_ (exists_congr fun c => and_congr_right fun hc => ?_)
      · constructor
        · exact fun h => ⟨h.2.1, h.2.2, hMax⟩
        · exact fun h => ⟨hMax, h.1, h.2.1⟩
      · have := hHead c hc
        rw [runNumber_eq hSpaced (by omega), Nat.one_add_le_iff]

end Table

theorem toFinset_sortedChunks (table : List AllocEntry) (blocks : List DirtyBlock) :
    (sortedChunks table (blocks.map DirtyBlock.start)).toFinset = keptChunks table blocks := by
  ext c
  rw [List.mem_toFinset, mem_sortedChunks, keptChunks, List.mem_toFinset, List.mem_filter,
    List.mem_map]
  simp only [List.mem_map, exists_exists_and_eq_and]

/-- A dirty block lies within the 2 MB of its rounded address. -/
theorem DirtyBlock.has_chunk {b : DirtyBlock} {x : Nat} (h : b.Has x) :
    roundChunk b.start ≤ x ∧ x < roundChunk b.start + chunkBytes := by
  have hWithin := b.within
  rw [DirtyBlock.Has] at h
  simp only [roundChunk, chunkBytes] at *
  omega

/-- The dirty table of the precopy baseline is exact if and only if each dirty block of a
live allocation is representable. -/
theorem tableExact_iff (table : List AllocEntry) (nAllocs : Nat) (blocks : List DirtyBlock) :
    TableExact table blocks
        (dirtyTable (table.take nAllocs) (blocks.map DirtyBlock.start)) ↔
      Representable table nAllocs blocks := by
  have hKept := toFinset_sortedChunks (table.take nAllocs) blocks
  constructor
  · rintro ⟨-, hCovers⟩ b hb e he hLive ⟨x, hIn, hAlloc⟩
    obtain ⟨c, hc, hLow, hHigh, hRank⟩ :=
      (dirtyTable_covers _ _ x).mp (hCovers b hb e he hLive x hIn hAlloc)
    obtain ⟨⟨a, -, rfl⟩, hInside⟩ := (mem_sortedChunks _ _ c).mp hc
    have hSame := roundChunk_unique ⟨hLow, hHigh⟩ (DirtyBlock.has_chunk hIn)
    rw [hSame] at hInside hRank
    exact ⟨hInside, hKept ▸ hRank⟩
  · intro h
    refine ⟨dirtyTable_apart _ _, fun b hb e he hLive x hIn hAlloc => ?_⟩
    obtain ⟨hInside, hRank⟩ := h b hb e he hLive ⟨x, hIn, hAlloc⟩
    obtain ⟨hLow, hHigh⟩ := DirtyBlock.has_chunk hIn
    refine (dirtyTable_covers _ _ x).mpr ⟨roundChunk b.start, ?_, hLow, hHigh, hKept ▸ hRank⟩
    exact (mem_sortedChunks _ _ _).mpr ⟨⟨_, List.mem_map_of_mem hb, rfl⟩, hInside⟩

/-- A dirty block of an allocation of 1 MB. -/
def halfChunk : DirtyBlock := ⟨chunkBytes, chunkBytes / 2, by decide, by decide⟩

/-- Its 2 MB do not lie inside the allocation, and the table stays empty. -/
theorem not_tableExact_halfChunk :
    ¬TableExact [⟨chunkBytes, chunkBytes / 2, false, false⟩] [halfChunk]
      (dirtyTable [⟨chunkBytes, chunkBytes / 2, false, false⟩] [halfChunk.start]) := by
  intro h
  have hEmpty : dirtyTable [⟨chunkBytes, chunkBytes / 2, false, false⟩] [halfChunk.start] = [] := by
    rw [dirtyTable, List.map_singleton, List.mergeSort_singleton]
    decide
  obtain ⟨r, hr, -⟩ := h.covers halfChunk List.mem_cons_self _ List.mem_cons_self rfl chunkBytes
    (by decide) (by decide)
  rw [hEmpty] at hr
  cases hr

end FlashCkpt.Core
