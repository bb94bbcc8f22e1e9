import FlashCkpt.Library.Shares
import FlashCkpt.Core.Streaming

/-! The writers of the coalesced image and of the fused delta. Each is given a share of the
descriptors before it starts and copies the sections of these ranges into the mapped file. -/
namespace FlashCkpt.Core

open ByteImage Image Transition WorkerPool

/-- Between one and 16 writers. -/
def clampWriters (n : Int) : Nat := if n < 1 then 1 else if 16 < n then 16 else n.toNat

/-- `n_writers`, with the value of CKPT_WRITER_THREADS. -/
def parallelWriters (threads : Option Int) (ranges : Nat) : Nat :=
  let n := clampWriters (threads.getD 8)
  if 0 < ranges ∧ ranges < n then ranges else n

/-- What each writer has still to copy, and the bytes of the mapped file. -/
structure Writers where
  pool : Pool (Sections × RangeDesc) Write
  data : ByteImage.Image

def Writers.start (threads : Option Int) (table : List (Sections × RangeDesc))
    (old : ByteImage.Image) : Writers where
  pool :=
    { queue := []
      workers := (Shares.shares (parallelWriters threads table.length) table).map
        fun share => share.flatMap sectionWrites }
  data := old

/-- A writer makes its next copy. -/
def Writers.copy (s : Writers) (writer : Nat) : Option Writers :=
  (s.pool.work writer).map fun (copied, pool) => ⟨pool, write s.data copied⟩

/-- A run of the writers until all of them have ended. -/
structure WritersRun (threads : Option Int) (table : List (Sections × RangeDesc))
    (old : ByteImage.Image) where
  turns : List Nat
  last : Writers
  reached : execute Writers.copy (.start threads table old) turns = some last
  ended : last.pool.resting = true

theorem clampWriters_pos (n : Int) : 0 < clampWriters n := by
  rw [clampWriters]
  split
  · exact Nat.one_pos
  · split <;> omega

theorem parallelWriters_pos (threads : Option Int) (ranges : Nat) :
    0 < parallelWriters threads ranges := by
  rw [parallelWriters]
  split
  · rename_i h
    exact h.1
  · exact clampWriters_pos _

namespace Writers

variable {threads : Option Int} {table : List (Sections × RangeDesc)} {old : ByteImage.Image}
variable {s t : Writers}

/-- What the writers have copied and have still to copy are the sections of the table. -/
structure Inv (table : List (Sections × RangeDesc)) (old : ByteImage.Image) (s : Writers) :
    Prop where
  queue : s.pool.queue = []
  copied : ∃ order, s.data = writeAll old order ∧
    (order ++ s.pool.pending sectionWrites).Perm (table.flatMap sectionWrites)

theorem inv_start : Inv table old (.start threads table old) where
  queue := rfl
  copied := by
    refine ⟨[], rfl, ?_⟩
    have hShares := Shares.flatten_shares (parallelWriters_pos threads table.length) table
    have hPending : (Writers.start threads table old).pool.pending sectionWrites =
        table.flatMap sectionWrites := by
      conv_rhs => rw [← hShares]
      simp [start, Pool.pending, List.flatMap_def, List.map_flatten, List.flatten_flatten,
        Function.comp_def]
    rw [hPending]
    exact List.Perm.refl _

theorem Inv.copy {writer : Nat} (h : Inv table old s) (hNext : s.copy writer = some t) :
    Inv table old t := by
  obtain ⟨⟨copied, pool⟩, hWork, rfl⟩ := Option.map_eq_some_iff.mp hNext
  obtain ⟨order, hData, hPerm⟩ := h.copied
  constructor
  · have hQueue : pool.queue = s.pool.queue := by
      rw [Pool.work] at hWork
      split at hWork
      · cases hWork
        rfl
      · cases hWork
    exact hQueue.trans h.queue
  · refine ⟨order ++ [copied], ?_, ?_⟩
    · rw [writeAll, List.foldl_concat, ← writeAll, ← hData]
    · rw [List.append_assoc, List.singleton_append]
      exact ((pending_work hWork).symm.append_left order).trans hPerm

/-- A writer that has something to copy brings the others nearer to their end. -/
theorem exists_last (h : s.pool.queue = []) :
    ∃ turns last, execute Writers.copy s turns = some last ∧ last.pool.resting = true := by
  generalize hCount : (s.pool.pending sectionWrites).length = n
  induction n generalizing s with
  | zero =>
      refine ⟨[], s, rfl, resting_iff.mpr ⟨h, ?_⟩⟩
      rw [List.length_eq_zero_iff, Pool.pending, h, List.flatMap_nil, List.append_nil,
        List.flatten_eq_nil_iff] at hCount
      exact hCount
  | succ n ih =>
      obtain ⟨writer, task, more, hWriter⟩ : ∃ (writer : Nat) (task : Write) (more : List Write),
          s.pool.workers[writer]? = some (task :: more) := by
        by_contra hNone
        have hEmpty : ∀ left ∈ s.pool.workers, left = [] := by
          intro left hLeft
          obtain ⟨i, hi⟩ := List.getElem?_of_mem hLeft
          cases left with
          | nil => rfl
          | cons task more => exact absurd ⟨i, task, more, hi⟩ hNone
        rw [Pool.pending, h, List.flatMap_nil, List.append_nil,
          List.flatten_eq_nil_iff.mpr hEmpty] at hCount
        exact absurd hCount (Nat.succ_ne_zero n).symm
      have hWork : s.pool.work writer =
          some (task, { s.pool with workers := s.pool.workers.set writer more }) := by
        rw [Pool.work, hWriter]
      have hLess := (show (s.pool.pending sectionWrites).Perm _ from pending_work hWork).length_eq
      rw [hCount, List.length_cons] at hLess
      obtain ⟨turns, last, hRun, hEnded⟩ :=
        ih (s := ⟨{ s.pool with workers := s.pool.workers.set writer more }, write s.data task⟩) h
          (Nat.succ.inj hLess).symm
      refine ⟨writer :: turns, last, ?_, hEnded⟩
      rw [execute_cons, copy, hWork]
      exact hRun

end Writers

namespace WritersRun

variable {threads : Option Int} {table : List (Sections × RangeDesc)} {old : ByteImage.Image}

/-- Whatever the writers' turns were, the bytes are those of some order of all copies. -/
theorem exists_schedule (run : WritersRun threads table old) : ∃ pool : Schedule,
    run.last.data = writeAll old (pool.order (table.flatMap sectionWrites)) := by
  have hInv : Writers.Inv table old run.last :=
    invariant_execute (fun _ _ _ h hNext => h.copy hNext) run.turns _ _ Writers.inv_start
      run.reached
  obtain ⟨order, hData, hPerm⟩ := hInv.copied
  rw [pending_resting run.ended, List.append_nil] at hPerm
  exact ⟨scheduleOf hPerm, by rw [scheduleOf_order, hData]⟩

/-- The writers come to their end. -/
theorem exists_run (threads : Option Int) (table : List (Sections × RangeDesc))
    (old : ByteImage.Image) : Nonempty (WritersRun threads table old) := by
  obtain ⟨turns, last, hRun, hEnded⟩ :=
    Writers.exists_last (s := .start threads table old) rfl
  exact ⟨⟨turns, last, hRun, hEnded⟩⟩

end WritersRun

end FlashCkpt.Core
