import Mathlib.Algebra.Order.Ring.Nat
import Mathlib.Data.Fintype.Basic
import Mathlib.Data.Finset.Card

/-! The mappings of a managed va_block: which processors hold a page, and with
which permission each processor maps it. The three operations on them are those
of the driver, with what a failure leaves behind. Pages of a block are numbered
from zero; a shorter block is one whose last pages are never resident. -/
namespace FlashCkpt.Uvm

inductive Proc (g : Nat) where
  | cpu
  | gpu (id : Fin g)
  deriving DecidableEq, Repr

section Processors

variable {g : Nat}

def Proc.isGpu : Proc g → Bool
  | .cpu => false
  | .gpu _ => true

/-- All processor ids in their order, which is the order of every walk over a
processor mask. -/
def Proc.all : List (Proc g) := .cpu :: (List.finRange g).map .gpu

theorem Proc.mem_all (p : Proc g) : p ∈ Proc.all := by
  cases p with
  | cpu => exact List.mem_cons_self
  | gpu id =>
      exact List.mem_cons_of_mem _ (List.mem_map_of_mem (List.mem_finRange id))

theorem Proc.all_nodup : (Proc.all : List (Proc g)).Nodup := by
  refine List.nodup_cons.mpr ⟨by simp, ?_⟩
  exact (List.nodup_finRange g).map fun _ _ h => Proc.gpu.inj h

instance : Fintype (Proc g) := ⟨⟨↑(Proc.all : List (Proc g)), Proc.all_nodup⟩, Proc.mem_all⟩

end Processors

/-- `uvm_prot_t`. -/
inductive Prot where
  | none
  | readOnly
  | readWrite
  | readWriteAtomic
  deriving DecidableEq, Repr

namespace Prot

def level : Prot → Nat
  | none => 0
  | readOnly => 1
  | readWrite => 2
  | readWriteAtomic => 3

instance : LE Prot := ⟨fun a b => a.level ≤ b.level⟩

instance : LT Prot := ⟨fun a b => a.level < b.level⟩

instance (a b : Prot) : Decidable (a ≤ b) := inferInstanceAs (Decidable (a.level ≤ b.level))

instance (a b : Prot) : Decidable (a < b) := inferInstanceAs (Decidable (a.level < b.level))

/-- The permission below, `prot - 1`. -/
def lower : Prot → Prot
  | none | readOnly => none
  | readWrite => readOnly
  | readWriteAtomic => readWrite

/-- A page mapped so can be written without a fault. -/
def writable (prot : Prot) : Bool := decide (readWrite ≤ prot)

theorem le_readWriteAtomic (prot : Prot) : prot ≤ readWriteAtomic := by
  cases prot <;> decide

theorem not_writable_iff {prot : Prot} : prot.writable = false ↔ prot ≤ readOnly := by
  cases prot <;> decide

end Prot

inductive ReadDuplication where
  | unset
  | enabled
  | disabled
  deriving DecidableEq, Repr

/-- A managed range as its blocks see it: the processor masks of the VA space,
and the policy and protection of the range. `canAccess p r` is also the bit `p`
of `accessible_from[r]`, and `nativeAtomics r p` that of `has_native_atomics[r]`. -/
structure Range (g : Nat) where
  canAccess : Proc g → Proc g → Bool
  nativeAtomics : Proc g → Proc g → Bool
  faultable : Proc g → Bool
  systemWideAtomics : Proc g → Bool
  gpuVaSpace : Fin g → Bool
  hasMemory : Proc g → Bool
  canReadDuplicate : Bool
  faultForceSysmem : Bool
  preferredLocation : Option (Proc g)
  accessedBy : Proc g → Bool
  readDuplication : ReadDuplication
  uvmLite : Proc g → Bool
  logicalProt : Prot

/-- `uvm_va_policy_is_read_duplicate`. -/
def Range.isReadDuplicate {g : Nat} (range : Range g) : Bool :=
  decide (range.readDuplication = .enabled) && range.canReadDuplicate

/-- What the live migration reads and changes of a va_block. -/
structure Block (g n : Nat) where
  resident : Proc g → Finset (Fin n)
  prot : Proc g → Fin n → Prot
  readDuplicated : Finset (Fin n)
  maybeMapped : Finset (Fin n)
  tracked : Bool
  dirty : Bool

namespace Block

variable {g n : Nat}

/-- `va_block->resident`. -/
def residentProcessors (b : Block g n) : List (Proc g) :=
  Proc.all.filter fun p => (b.resident p).Nonempty

/-- `va_block->mapped`. -/
def mapped (b : Block g n) (p : Proc g) : Bool :=
  decide (∃ page, b.prot p page ≠ .none)

/-- `uvm_va_block_page_resident_processors`. -/
def pageResidentProcessors (b : Block g n) (page : Fin n) : List (Proc g) :=
  Proc.all.filter fun p => page ∈ b.resident p

theorem pageResidentProcessors_ne_nil {b : Block g n} {page : Fin n} :
    b.pageResidentProcessors page ≠ [] ↔ ∃ src, page ∈ b.resident src := by
  constructor
  · intro h
    obtain ⟨src, hMem⟩ := List.exists_mem_of_ne_nil _ h
    rw [pageResidentProcessors, List.mem_filter] at hMem
    exact ⟨src, of_decide_eq_true hMem.2⟩
  · intro ⟨src, hSrc⟩
    apply List.ne_nil_of_mem (a := src)
    rw [pageResidentProcessors, List.mem_filter]
    exact ⟨src.mem_all, decide_eq_true hSrc⟩

/-- `block_page_authorized_processors`. -/
def pageAuthorizedProcessors (b : Block g n) (page : Fin n) (prot : Prot) : List (Proc g) :=
  Proc.all.filter fun p => prot ≤ b.prot p page

/-- `map_get_allowed_destinations`. -/
def allowedDestinations (range : Range g) (b : Block g n) (p : Proc g) : List (Proc g) :=
  let wanted :=
    if range.uvmLite p then range.preferredLocation.toList
    else if (range.isReadDuplicate ∨
        range.preferredLocation = some p ∧ range.faultForceSysmem = false) ∧
        range.hasMemory p then [p]
    else b.residentProcessors
  wanted.filter fun r => (b.resident r).Nonempty ∧ range.canAccess p r

/-- The pages a mapping of this processor may point to. -/
def reachable (range : Range g) (b : Block g n) (p : Proc g) : Finset (Fin n) :=
  Finset.univ.filter fun page => ∃ r ∈ b.allowedDestinations range p, page ∈ b.resident r

/-- Whether `uvm_va_block_map` does anything for this processor: it needs the `mm`
of the process for the CPU, and a GPU VA space for a GPU. -/
def canMap (range : Range g) (mm : Bool) : Proc g → Bool
  | .cpu => mm
  | .gpu id => range.gpuVaSpace id

/-- The permission a mapping ends up with. For the CPU, write implies atomic. -/
def mappedProt (p : Proc g) (prot : Prot) : Prot :=
  if p = .cpu ∧ prot = .readWrite then .readWriteAtomic else prot

/-- `uvm_va_block_map`, which never lowers a permission. The CPU is not mapped with
more than its VMA allows. -/
def map (range : Range g) (mm : Bool) (p : Proc g) (pages : Finset (Fin n)) (prot : Prot)
    (b : Block g n) : Block g n :=
  if canMap range mm p then
    let fresh := (pages ∩ b.reachable range p).filter fun page =>
      b.prot p page < mappedProt p prot ∧ (p = .cpu → mappedProt p prot ≤ range.logicalProt)
    { b with
      prot := fun q page => if q = p ∧ page ∈ fresh then mappedProt p prot else b.prot q page
      maybeMapped := if range.uvmLite p then b.maybeMapped else b.maybeMapped ∪ fresh }
  else b

/-- Whether this processor is the only one with mappings, where the CPU counts
all others and a GPU those that are not UVM-Lite. -/
def onlyMapped (range : Range g) (b : Block g n) (p : Proc g) : Bool :=
  Proc.all.all (fun q => q = p || !b.mapped q || p.isGpu && range.uvmLite q) &&
    !(p.isGpu && range.uvmLite p)

/-- `uvm_va_block_unmap`. -/
def unmap (range : Range g) (p : Proc g) (pages : Finset (Fin n)) (b : Block g n) :
    Block g n :=
  { b with
    prot := fun q page => if q = p ∧ page ∈ pages then .none else b.prot q page
    maybeMapped :=
      if b.onlyMapped range p then b.maybeMapped \ pages.filter (b.prot p · ≠ .none)
      else b.maybeMapped }

/-- `block_revoke_cpu_write`: the pages with a write mapping are unmapped and, as
far as `done`, mapped again for reading. -/
def revokeCpuWrite (range : Range g) (mm : Bool) (pages done : Finset (Fin n))
    (b : Block g n) : Block g n :=
  let writes := pages.filter fun page => (b.prot .cpu page).writable
  (b.unmap range .cpu writes).map range mm .cpu (writes ∩ done) .readOnly

/-- The GPU part of `uvm_va_block_revoke_prot`, which goes through the pages by
the processor they are resident on. -/
def revokeGpu (id : Fin g) (pages : Finset (Fin n)) (prot : Prot) (b : Block g n) :
    Block g n :=
  { b with
    prot := fun q page =>
      if q = .gpu id ∧ page ∈ pages ∧ prot ≤ b.prot q page ∧ b.pageResidentProcessors page ≠ []
      then prot.lower else b.prot q page }

end Block

/-- One call of `uvm_va_block_unmap`, `uvm_va_block_revoke_prot` or
`uvm_va_block_map`. -/
inductive Op (g n : Nat) where
  | unmap (p : Proc g) (pages : Finset (Fin n))
  | revoke (p : Proc g) (pages : Finset (Fin n)) (prot : Prot)
  | map (p : Proc g) (pages : Finset (Fin n)) (prot : Prot)
  deriving DecidableEq

/-- A failing call: which one, and the pages it was done with. -/
structure Failure (n : Nat) where
  index : Nat
  done : Finset (Fin n)

section Calls

variable {g n : Nat}

/-- The call as far as the pages `done`, which are all pages of one that succeeds.
The atomic permission of the CPU cannot be revoked. -/
def Op.apply (range : Range g) (mm : Bool) (done : Finset (Fin n)) (b : Block g n) :
    Op g n → Block g n
  | .unmap p pages => b.unmap range p (pages ∩ done)
  | .revoke .cpu pages prot =>
      if prot = .readWriteAtomic then b else b.revokeCpuWrite range mm pages done
  | .revoke (.gpu id) pages prot => b.revokeGpu id (pages ∩ done) prot
  | .map p pages prot => b.map range mm p (pages ∩ done) prot

/-- The calls in order up to the one that fails; a failure behind the last call is
one of what follows them. -/
def runOps (range : Range g) (mm : Bool) :
    List (Op g n) → Option (Failure n) → Block g n → Block g n × Bool
  | [], failure, b => (b, failure.isNone)
  | op :: rest, none, b => runOps range mm rest none (op.apply range mm Finset.univ b)
  | op :: _, some ⟨0, done⟩, b => (op.apply range mm done b, false)
  | op :: rest, some ⟨k + 1, done⟩, b =>
      runOps range mm rest (some ⟨k, done⟩) (op.apply range mm Finset.univ b)

/-- The second block differs from the first in its mappings only. -/
structure Remapped (b b' : Block g n) : Prop where
  resident : b'.resident = b.resident
  readDuplicated : b'.readDuplicated = b.readDuplicated
  tracked : b'.tracked = b.tracked
  dirty : b'.dirty = b.dirty

namespace Remapped

theorem refl (b : Block g n) : Remapped b b := ⟨rfl, rfl, rfl, rfl⟩

theorem trans {b c d : Block g n} (h : Remapped b c) (h' : Remapped c d) : Remapped b d :=
  ⟨h'.resident.trans h.resident, h'.readDuplicated.trans h.readDuplicated,
    h'.tracked.trans h.tracked, h'.dirty.trans h.dirty⟩

theorem map (range : Range g) (mm : Bool) (p : Proc g) (pages : Finset (Fin n)) (prot : Prot)
    (b : Block g n) : Remapped b (b.map range mm p pages prot) := by
  unfold Block.map
  split
  · exact ⟨rfl, rfl, rfl, rfl⟩
  · exact refl b

theorem apply (range : Range g) (mm : Bool) (done : Finset (Fin n)) (b : Block g n)
    (op : Op g n) : Remapped b (op.apply range mm done b) := by
  rcases op with ⟨p, pages⟩ | ⟨_ | id, pages, prot⟩ | ⟨p, pages, prot⟩
  · exact ⟨rfl, rfl, rfl, rfl⟩
  · simp only [Op.apply]
    split
    · exact refl b
    · exact trans (c := b.unmap range .cpu _) ⟨rfl, rfl, rfl, rfl⟩ (map range mm _ _ _ _)
  · exact ⟨rfl, rfl, rfl, rfl⟩
  · exact map range mm _ _ _ _

/-- What a mapping can point to depends on where the pages are. -/
theorem reachable_eq {b b' : Block g n} (h : Remapped b b') (range : Range g) (p : Proc g) :
    b'.reachable range p = b.reachable range p := by
  obtain ⟨resident, prot, duplicated, maybe, tracked, dirty⟩ := b
  obtain ⟨resident', prot', duplicated', maybe', tracked', dirty'⟩ := b'
  cases h.resident
  rfl

end Remapped

variable {range : Range g} {mm : Bool} {done : Finset (Fin n)} {b : Block g n}

/-- A page a mapping changes was in its pages, could be reached, and gains. -/
theorem Block.map_prot (range : Range g) (mm : Bool) (p : Proc g) (pages : Finset (Fin n))
    (prot : Prot) (b : Block g n) (q : Proc g) (page : Fin n) :
    (b.map range mm p pages prot).prot q page = b.prot q page ∨
      q = p ∧ canMap range mm p = true ∧ page ∈ pages ∧ page ∈ b.reachable range p ∧
        b.prot p page < mappedProt p prot ∧
        (b.map range mm p pages prot).prot q page = mappedProt p prot := by
  unfold Block.map
  split
  · rename_i hCan
    by_cases h : q = p ∧ page ∈ (pages ∩ b.reachable range p).filter fun page =>
        b.prot p page < mappedProt p prot ∧ (p = .cpu → mappedProt p prot ≤ range.logicalProt)
    · right
      have hFresh := h.2
      rw [Finset.mem_filter, Finset.mem_inter] at hFresh
      exact ⟨h.1, hCan, hFresh.1.1, hFresh.1.2, hFresh.2.1, if_pos h⟩
    · exact .inl (if_neg h)
  · exact .inl rfl

theorem mappedProt_writable (p : Proc g) (prot : Prot) :
    (Block.mappedProt p prot).writable = prot.writable := by
  unfold Block.mappedProt
  split
  · rename_i h
    rw [h.2]
    rfl
  · rfl

/-- Only a mapping call gives a write permission, and only to its processor. -/
theorem Op.apply_writable (op : Op g n) {q : Proc g} {page : Fin n}
    (h : ((op.apply range mm done b).prot q page).writable = true) :
    (b.prot q page).writable = true ∨
      ∃ pages prot, op = .map q pages prot ∧ page ∈ pages ∧ page ∈ b.reachable range q ∧
        prot.writable = true := by
  rcases op with ⟨p, pages⟩ | ⟨_ | id, pages, prot⟩ | ⟨p, pages, prot⟩
  · simp only [Op.apply, Block.unmap] at h
    split at h
    · cases h
    · exact .inl h
  · left
    simp only [Op.apply] at h
    split at h
    · exact h
    · rcases Block.map_prot range mm _ _ _ _ _ _ with hSame | hGain
      · rw [Block.revokeCpuWrite, hSame] at h
        simp only [Block.unmap] at h
        split at h
        · cases h
        · exact h
      · rw [Block.revokeCpuWrite, hGain.2.2.2.2.2] at h
        cases h
  · left
    simp only [Op.apply, Block.revokeGpu] at h
    split at h
    · rename_i hRevoked
      have hOld := hRevoked.2.2.1
      revert h hOld
      cases prot <;> cases b.prot q page <;> decide
    · exact h
  · rcases Block.map_prot range mm _ _ _ _ _ _ with hSame | hGain
    · left
      rwa [Op.apply, hSame] at h
    · right
      obtain ⟨rfl, -, hPage, hReach, -, hProt⟩ := hGain
      refine ⟨pages, prot, rfl, Finset.mem_of_mem_inter_left hPage, hReach, ?_⟩
      rw [Op.apply, hProt, mappedProt_writable] at h
      exact h

/-- The rule for a row of calls: what each of them keeps, failing or not, all of
them keep. -/
theorem runOps_preserves {Inv : Block g n → Prop} {ops : List (Op g n)}
    (hOp : ∀ op ∈ ops, ∀ done b, Inv b → Inv (op.apply range mm done b))
    (failure : Option (Failure n)) (h : Inv b) : Inv (runOps range mm ops failure b).1 := by
  induction ops generalizing failure b with
  | nil => exact h
  | cons op rest ih =>
      have hFirst := hOp op List.mem_cons_self
      have hRest := fun op' h' => hOp op' (List.mem_cons_of_mem op h')
      rcases failure with - | ⟨index, done⟩
      · exact ih hRest none (hFirst _ _ h)
      · cases index with
        | zero => exact hFirst done b h
        | succ k => exact ih hRest (some ⟨k, done⟩) (hFirst _ _ h)

/-- The call maps nothing for writing. -/
def Op.GivesNoWrite (op : Op g n) : Prop :=
  ∀ q pages prot, op = .map q pages prot → prot.writable = false

theorem Op.apply_not_writable {op : Op g n} (hOp : op.GivesNoWrite) {q : Proc g} {page : Fin n}
    (h : (b.prot q page).writable = false) :
    ((op.apply range mm done b).prot q page).writable = false := by
  cases hAfter : ((op.apply range mm done b).prot q page).writable with
  | false => rfl
  | true =>
      rcases op.apply_writable hAfter with hBefore | ⟨pages, prot, hMap, -, -, hWrite⟩
      · rw [h] at hBefore
        cases hBefore
      · rw [hOp q pages prot hMap] at hWrite
        cases hWrite

theorem runOps_not_writable (range : Range g) (mm : Bool) {ops : List (Op g n)}
    (hOps : ∀ op ∈ ops, op.GivesNoWrite)
    (failure : Option (Failure n)) {q : Proc g} {page : Fin n}
    (h : (b.prot q page).writable = false) :
    ((runOps range mm ops failure b).1.prot q page).writable = false := by
  let Inv := fun b' : Block g n => (b'.prot q page).writable = false
  have hOp : ∀ op ∈ ops, ∀ done b', Inv b' → Inv (op.apply range mm done b') :=
    fun op hMem _ _ hBefore => Op.apply_not_writable (hOps op hMem) hBefore
  exact runOps_preserves hOp failure h

/-- One call of a row that all succeed takes a write permission, and none of the
others gives it back. -/
theorem runOps_clears {ops : List (Op g n)} (hOps : ∀ op ∈ ops, op.GivesNoWrite) {op : Op g n}
    (hOp : op ∈ ops) {q : Proc g} {page : Fin n}
    (hClears : ∀ b', Remapped b b' →
      ((op.apply range mm Finset.univ b').prot q page).writable = false) :
    ((runOps range mm ops none b).1.prot q page).writable = false := by
  induction ops generalizing b with
  | nil => cases hOp
  | cons first rest ih =>
      have hRest := fun op' h' => hOps op' (List.mem_cons_of_mem first h')
      rw [runOps]
      rcases List.mem_cons.mp hOp with rfl | hLater
      · exact runOps_not_writable range mm hRest none (hClears b (Remapped.refl b))
      · refine ih hRest hLater fun b' hRemapped => hClears b' ?_
        exact (Remapped.apply range mm Finset.univ b first).trans hRemapped

/-- Revoking the write permission of a processor leaves a page for reading. A GPU
loses it on pages that are resident somewhere. -/
theorem Op.revoke_clears (p : Proc g) {pages : Finset (Fin n)} {page : Fin n}
    (hPage : page ∈ pages) (hResident : p.isGpu = true → ∃ r, page ∈ b.resident r) :
    (((Op.revoke p pages .readWrite).apply range mm Finset.univ b).prot p page).writable =
      false := by
  cases p with
  | cpu =>
      rw [Op.apply, if_neg (by decide), Block.revokeCpuWrite]
      rcases Block.map_prot range mm _ _ _ _ _ _ with hSame | hGain
      · rw [hSame]
        show (if _ ∧ page ∈ pages.filter _ then _ else _ : Prot).writable = false
        split
        · rfl
        · rename_i hKept
          simpa [hPage] using hKept
      · rw [hGain.2.2.2.2.2]
        rfl
  | gpu id =>
      have hSomewhere := Block.pageResidentProcessors_ne_nil.mpr (hResident rfl)
      show (if _ ∧ _ ∧ _ ∧ _ then _ else _ : Prot).writable = false
      split
      · rfl
      · rename_i hKept
        have hLow : ¬.readWrite ≤ b.prot (.gpu id) page := fun hWrite =>
          hKept ⟨rfl, by simpa using hPage, hWrite, hSomewhere⟩
        exact decide_eq_false hLow

theorem Remapped.runOps (range : Range g) (mm : Bool) (ops : List (Op g n))
    (failure : Option (Failure n)) (b : Block g n) :
    Remapped b (runOps range mm ops failure b).1 :=
  runOps_preserves (fun op _ done _ h => h.trans (Remapped.apply range mm done _ op)) failure
    (Remapped.refl b)

end Calls

end FlashCkpt.Uvm
