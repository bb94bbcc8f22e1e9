import FlashCkpt.Emul.GcrCopy
import FlashCkpt.Emul.PhosCopy

/-! The rounds of both emulators over whole runs, with what fails in each of them. -/
namespace FlashCkpt.Emul

open Transition

/-- The runs of GCR, with the faults of each round beside it. -/
def Gcr.nextFaulty (cfg : Gcr.Config) (p : Gcr.Process) (label : Gcr.Op × Gcr.Faults) :
    Option Gcr.Process :=
  Gcr.next cfg p label.1

/-- The runs of PHOS, with the faults of each round beside it. -/
def Phos.nextFaulty (images : Phos.Images) (s : State PhosFlags)
    (label : Phos.RoundOp × Phos.RoundFaults) : Option (State PhosFlags) :=
  Phos.nextOp images s label.1

/-- In every run of either emulator the rounds leave no dirty buffer behind and no bytes that
were not copied, exactly if nothing fails in a round that has something to copy. -/
theorem rounds_safe_along_iff (cfg : Gcr.Config) (calls : List (Gcr.Op × Gcr.Faults))
    (images : Phos.Images) (ops : List (Phos.RoundOp × Phos.RoundFaults)) :
    (Along (Gcr.nextFaulty cfg)
          (fun p label => ∀ memory, label.1 = .round memory → p.Safe cfg memory label.2)
          Gcr.Process.init calls ↔
        Along (Gcr.nextFaulty cfg)
          (fun p label => ∀ memory, label.1 = .round memory →
            p.dirty.list = [] ∨ p.Complete cfg memory label.2)
          Gcr.Process.init calls) ∧
      (Along (Phos.nextFaulty images)
          (fun s label => ∀ early late, label.1 = .round early late →
            Phos.SafeRound images s early late label.2)
          State.init ops ↔
        Along (Phos.nextFaulty images)
          (fun s label => ∀ early late, label.1 = .round early late →
            Phos.CompleteRound images s early late label.2)
          State.init ops) := by
  constructor
  · refine along_congr_of_invariant (fun p label q (h : p.Inv cfg) hNext => h.next hNext) ?_
      (Gcr.Process.inv_init cfg) calls
    intro p label h
    exact forall_congr' fun memory => imp_congr_right fun _ => h.safe_iff
  · refine along_congr_of_invariant
      (fun s label t (h : Phos.Slotted images.base s.table) hNext => h.nextOp hNext) ?_
      ⟨packed_init images.base, fun e he => absurd he List.not_mem_nil⟩ ops
    intro s label h
    exact forall₂_congr fun early late => imp_congr_right fun _ =>
      ⟨h.complete_of_safe, h.safe_of_complete⟩

/-- A mapping of 2 MB is set, and the copy of the round is refused. -/
def refusedCopy : List (Gcr.Op × Gcr.Faults) :=
  let f : Gcr.Faults := ⟨true, true, true, true, true, fun _ => .refused⟩
  [(.call (.alloc true 0x200000 0x200000), f), (.memset 0x200000 0x200000, f), (.round true, f)]

/-- GCR writes what the staging buffer held before, and the range is no longer dirty. -/
theorem not_safe_refusedCopy :
    ¬((∀ (cfg : Gcr.Config) (ops : List (Gcr.Op × Gcr.Faults)),
        Along (Gcr.nextFaulty cfg)
          (fun p label => ∀ memory, label.1 = .round memory → p.Safe cfg memory label.2)
          Gcr.Process.init ops) ∧
      ∀ (images : Phos.Images) (ops : List (Phos.RoundOp × Phos.RoundFaults)),
        Along (Phos.nextFaulty images)
          (fun s label => ∀ early late, label.1 = .round early late →
            Phos.SafeRound images s early late label.2)
          State.init ops) := by
  rintro ⟨hGcr, _⟩
  obtain ⟨p, hReached, hTaken, hCopies⟩ : ∃ p : Gcr.Process,
      execute (Gcr.nextFaulty Gcr.smallImage) Gcr.Process.init (refusedCopy.take 2) = some p ∧
        p.dirty.list ≠ [] ∧
        (p.taken.flatMap (Gcr.pieces p.table Gcr.smallImage.staging)).length = 1 :=
    ⟨_, rfl, by decide, by decide +kernel⟩
  have hInv : p.Inv Gcr.smallImage :=
    invariant_execute (fun p label q (h : p.Inv Gcr.smallImage) hNext => h.next hNext) _ _ p
      (Gcr.Process.inv_init _) hReached
  have hAlong : Along (Gcr.nextFaulty Gcr.smallImage)
      (fun p label => ∀ memory, label.1 = .round memory → p.Safe Gcr.smallImage memory label.2)
      p (refusedCopy.drop 2) :=
    (hGcr Gcr.smallImage refusedCopy).reached hReached
  obtain ⟨hSafe, _⟩ := hAlong _ rfl
  rcases hInv.safe_iff.mp (hSafe true rfl) with hEmpty | hComplete
  · exact hTaken hEmpty
  · have hDone := hComplete.copies 0 (by rw [hCopies]; exact Nat.one_pos)
    cases hDone

end FlashCkpt.Emul
