import FlashCkpt.Uvm.DirtyTracking
import FlashCkpt.Uvm.Queries

/-! PREPARE_ALL and FINALIZE over all VA spaces of the system: what their status says
about the blocks, whichever contexts cannot be allocated and whichever revokes fail. -/
namespace FlashCkpt.Uvm

variable {g n : Nat}

/-- The status `prepare_va_space_for_migration` fails with. -/
def PrepareFailure.status : PrepareFailure n → NvStatus
  | .noContext => .noMemory
  | .revoke _ => .other

/-- `prepare_va_space_for_migration`. -/
def State.prepare (s : State g n) (failure : Option (Nat × PrepareFailure n)) :
    State g n × NvStatus :=
  let prepared := prepareBlocks s.blocks failure
  (⟨prepared.1, s.trackingActive || prepared.2⟩,
    if prepared.2 then .ok else failure.elim .other fun f => f.2.status)

/-- The two ioctls, with what fails in them: the copy of the list of VA spaces, and in the
VA space with a number the context of a range or the revoke of a block, or the mapping of
blocks. -/
inductive Ioctl (g n : Nat) where
  | prepareAll (capable snapshot : Bool) (failures : Nat → Option (Nat × PrepareFailure n))
  | finalize (capable : Bool) (noContext : Nat → Nat → Bool)
      (failures : Nat → Nat → Option (Failure n))

/-- `uvm_api_live_migration_prepare_all` and `uvm_api_live_migration_finalize`. -/
def Ioctl.exec (spaces : List (State g n)) : Ioctl g n → NvStatus × List (State g n)
  | .prepareAll capable snapshot failures =>
      if !capable then (.insufficientPermissions, spaces)
      else if !spaces.isEmpty && !snapshot then (.noMemory, spaces)
      else
        let prepared := spaces.mapIdx fun i s => s.prepare (failures i)
        (if prepared.any fun r => r.2 = .ok then .ok
          else prepared.getLast?.elim .warnNothingToDo Prod.snd, prepared.map Prod.fst)
  | .finalize capable noContext failures =>
      if !capable then (.insufficientPermissions, spaces)
      else (.ok, spaces.mapIdx fun i s =>
        ⟨s.blocks.mapIdx fun j m => m.finalize (noContext i) (failures i) j, false⟩)

/-- The block is tracked, clean and cannot be written. -/
def Block.Ready (b : Block g n) : Prop :=
  b.tracked = true ∧ b.dirty = false ∧ b.WriteProtected

namespace State

variable (s : State g n)

def Ready : Prop := s.trackingActive = true ∧ ∀ m ∈ s.blocks, m.block.Ready

def Untracked : Prop := s.trackingActive = false ∧ ∀ m ∈ s.blocks, m.block.tracked = false

def FullyTracked : Prop := s.trackingActive = true ∧ ∀ m ∈ s.blocks, m.block.tracked = true

def PartlyTracked : Prop := ¬s.Untracked ∧ ¬s.FullyTracked

end State

/-- NV_OK of PREPARE_ALL says that every VA space is ready, NV_OK of FINALIZE that none is
tracked, and after any other status none is partly tracked. -/
def Ioctl.Truthful (call : Ioctl g n) (spaces : List (State g n)) : Prop :=
  ((call.exec spaces).1 ≠ .ok → ∀ s ∈ (call.exec spaces).2, ¬s.PartlyTracked) ∧
    ((call.exec spaces).1 = .ok → ∀ s ∈ (call.exec spaces).2,
      match call with
      | .prepareAll _ _ _ => s.Ready
      | .finalize _ _ _ => s.Untracked)

section Revokes

variable {range : Range g}

/-- The call for the processor at a place of the list was made, for the page. -/
def Reaches (failure : Option (Failure n)) (j : Nat) (p : Proc g) (page : Fin n) : Prop :=
  match failure with
  | none => True
  | some f => j < f.index ∨ j = f.index ∧ (p = .cpu ∨ page ∈ f.done)

/-- Each write mapping belongs to a processor that holds pages of the block and whose
revoke was made, and what a GPU can write is resident somewhere. -/
def Block.RevokedBy (failure : Option (Failure n)) (b : Block g n) : Prop :=
  ∀ p page, (b.prot p page).writable = true →
    ∃ j, b.residentProcessors[j]? = some p ∧ Reaches failure j p page ∧
      (p.isGpu = true → b.pageResidentProcessors page ≠ [])

/-- What one revoke without `mm` takes. -/
theorem revoke_writable (q : Proc g) (done : Finset (Fin n)) (b : Block g n) (p : Proc g)
    (page : Fin n) :
    (((Op.revoke q Finset.univ .readWrite).apply range false done b).prot p page).writable = true ↔
      (b.prot p page).writable = true ∧
        ¬(q = p ∧ (p = .cpu ∨ page ∈ done) ∧ (p.isGpu = true → b.pageResidentProcessors page ≠ [])) := by
  cases q with
  | cpu =>
      have hProt : ((Op.revoke .cpu Finset.univ .readWrite).apply range false done b).prot p page =
          if p = .cpu ∧ (b.prot .cpu page).writable = true then .none else b.prot p page := by
        simp [Op.apply, Block.revokeCpuWrite, Block.map, Block.canMap, Block.unmap]
      rw [hProt]
      by_cases hCpu : p = .cpu
      · subst hCpu
        by_cases hWrite : (b.prot .cpu page).writable = true
        · rw [if_pos ⟨rfl, hWrite⟩]
          refine iff_of_false (by decide) fun h => h.2 ⟨rfl, .inl rfl, fun hGpu => ?_⟩
          cases hGpu
        · rw [if_neg fun h => hWrite h.2]
          exact ⟨fun h => absurd h hWrite, And.left⟩
      · rw [if_neg fun h => hCpu h.1]
        exact ⟨fun h => ⟨h, fun hAll => hCpu hAll.1.symm⟩, And.left⟩
  | gpu id =>
      have hProt : ((Op.revoke (.gpu id) Finset.univ .readWrite).apply range false done b).prot p page =
          if p = .gpu id ∧ page ∈ done ∧ .readWrite ≤ b.prot p page ∧
            b.pageResidentProcessors page ≠ [] then .readOnly else b.prot p page := by
        simp [Op.apply, Block.revokeGpu, Prot.lower]
      rw [hProt]
      by_cases hGpu : p = .gpu id
      · subst hGpu
        by_cases hWrite : (b.prot (.gpu id) page).writable = true
        · have hLe : .readWrite ≤ b.prot (.gpu id) page := of_decide_eq_true hWrite
          by_cases hBoth : page ∈ done ∧ b.pageResidentProcessors page ≠ []
          · rw [if_pos ⟨rfl, hBoth.1, hLe, hBoth.2⟩]
            refine iff_of_false (by decide) fun h => h.2 ⟨rfl, .inr hBoth.1, fun _ => hBoth.2⟩
          · rw [if_neg fun h => hBoth ⟨h.2.1, h.2.2.2⟩]
            refine iff_of_true hWrite ⟨hWrite, fun h => hBoth ⟨?_, h.2.2 rfl⟩⟩
            exact h.2.1.resolve_left (by simp)
        · have hNot : ¬.readWrite ≤ b.prot (.gpu id) page := fun h => hWrite (decide_eq_true h)
          rw [if_neg fun h => hNot h.2.2.1]
          exact ⟨fun h => absurd h hWrite, And.left⟩
      · rw [if_neg fun h => hGpu h.1]
        exact ⟨fun h => ⟨h, fun hAll => hGpu hAll.1.symm⟩, And.left⟩

theorem exists_getElem?_cons {α : Type} {a x : α} {rest : List α} {P : Nat → Prop} :
    (∃ j, (a :: rest)[j]? = some x ∧ P j) ↔
      a = x ∧ P 0 ∨ ∃ j, rest[j]? = some x ∧ P (j + 1) := by
  constructor
  · rintro ⟨j, hGet, h⟩
    cases j with
    | zero => exact .inl ⟨Option.some.inj hGet, h⟩
    | succ j => exact .inr ⟨j, hGet, h⟩
  · rintro (⟨rfl, h⟩ | ⟨j, hGet, h⟩)
    · exact ⟨0, rfl, h⟩
    · exact ⟨j + 1, hGet, h⟩

/-- The revoke that fails is made for part of the pages, those behind it are not. -/
theorem reaches_zero {done : Finset (Fin n)} {j : Nat} {p : Proc g} {page : Fin n} :
    Reaches (some ⟨0, done⟩) j p page ↔ j = 0 ∧ (p = .cpu ∨ page ∈ done) := by
  simp [Reaches]

theorem reaches_succ {k : Nat} {done : Finset (Fin n)} {j : Nat} {p : Proc g} {page : Fin n} :
    Reaches (some ⟨k + 1, done⟩) (j + 1) p page ↔ Reaches (some ⟨k, done⟩) j p page := by
  simp [Reaches]

/-- What the revokes of PREPARE_ALL leave, up to the one that fails. -/
theorem revokes_writable (ps : List (Proc g)) (failure : Option (Failure n)) (b : Block g n)
    (p : Proc g) (page : Fin n) :
    ((runOps range false (ps.map fun q => .revoke q Finset.univ .readWrite) failure b).1.prot
        p page).writable = true ↔
      (b.prot p page).writable = true ∧ ¬∃ j, ps[j]? = some p ∧ Reaches failure j p page ∧
        (p.isGpu = true → b.pageResidentProcessors page ≠ []) := by
  induction ps generalizing failure b with
  | nil => simp [runOps]
  | cons q rest ih =>
      have hSame (done : Finset (Fin n)) :
          ((Op.revoke q Finset.univ .readWrite).apply range false done
            b).pageResidentProcessors page = b.pageResidentProcessors page := by
        simp only [Block.pageResidentProcessors, (Remapped.apply range false done b _).resident]
      rw [exists_getElem?_cons, not_or, ← and_assoc]
      rcases failure with - | ⟨index, done⟩
      · rw [List.map_cons, runOps, ih, hSame, revoke_writable]
        simp [Reaches]
      · cases index with
        | zero =>
            rw [List.map_cons, runOps, revoke_writable]
            simp [reaches_zero]
        | succ k =>
            rw [List.map_cons, runOps, ih, hSame, revoke_writable]
            simp only [reaches_succ]
            simp [Reaches]

/-- A prepared block is ready when each of its write mappings was taken. -/
theorem prepareBlock_ready (failure : Option (Failure n)) (b : Block g n) :
    (prepareBlock range failure b).1.Ready ↔ b.RevokedBy failure := by
  have hFlags : (prepareBlock range failure b).1.tracked = true ∧
      (prepareBlock range failure b).1.dirty = false := prepareBlock_flags failure
  have hWritable (p : Proc g) (page : Fin n) :
      ((prepareBlock range failure b).1.prot p page).writable = true ↔
        (b.prot p page).writable = true ∧ ¬∃ j, b.residentProcessors[j]? = some p ∧
          Reaches failure j p page ∧ (p.isGpu = true → b.pageResidentProcessors page ≠ []) := by
    simp only [prepareBlock]
    split
    · rename_i hEmpty
      have hNone : b.residentProcessors = [] := hEmpty
      simp [hNone]
    · exact revokes_writable b.residentProcessors failure
        { b with dirty := false, tracked := true } p page
  rw [Block.Ready, Block.RevokedBy, Block.WriteProtected, and_iff_right hFlags.1,
    and_iff_right hFlags.2]
  refine forall_congr' fun p => forall_congr' fun page => ?_
  rw [← Bool.not_eq_true, hWritable]
  simp only [not_and, not_not]

end Revokes

section Spaces

/-- The failure that stops the preparation: nothing is revoked from a block without
residents. -/
def stop (blocks : List (Managed g n)) :
    Option (Nat × PrepareFailure n) → Option (Nat × PrepareFailure n)
  | some (k, .revoke failure) =>
      if blocks[k]?.any fun m => m.block.residentProcessors = [] then none
      else some (k, .revoke failure)
  | failure => failure

/-- Whether a block is reached before the stop, and what fails in it. -/
def reached : Option (Nat × PrepareFailure n) → Nat → Option (Option (Failure n))
  | none, _ => some none
  | some (k, cause), i =>
      if i < k then some none
      else if i = k then
        match cause with
        | .noContext => none
        | .revoke failure => some (some failure)
      else none

theorem runOps_fails (range : Range g) (mm : Bool) (ops : List (Op g n)) (failure : Failure n)
    (b : Block g n) : (runOps range mm ops (some failure) b).2 = false := by
  induction ops generalizing failure b with
  | nil => rfl
  | cons op rest ih =>
      obtain ⟨index, done⟩ := failure
      cases index with
      | zero => rfl
      | succ k => exact ih ⟨k, done⟩ _

/-- A revoke fails only in a block with residents. -/
theorem prepareBlock_ok (range : Range g) (failure : Failure n) (b : Block g n) :
    (prepareBlock range (some failure) b).2 = decide (b.residentProcessors = []) := by
  simp only [prepareBlock]
  split
  · rename_i hEmpty
    exact (decide_eq_true hEmpty).symm
  · rename_i hSome
    rw [runOps_fails]
    exact (decide_eq_false hSome).symm

theorem Managed.prepare_empty {m : Managed g n} (h : m.block.residentProcessors = [])
    (failure : Failure n) : m.prepare (some failure) = m.prepare none := by
  have hSame (f : Option (Failure n)) : (prepareBlock m.range f m.block).1 =
      { m.block with dirty := false, tracked := true } := by
    simp only [prepareBlock]
    exact congrArg Prod.fst (if_pos h)
  simp only [Managed.prepare, hSame]

/-- The stop of a row of blocks, from that of the rest of it. -/
theorem stop_cons_succ (m : Managed g n) (rest : List (Managed g n)) (k : Nat)
    (cause : PrepareFailure n) :
    stop (m :: rest) (some (k + 1, cause)) =
      (stop rest (some (k, cause))).map fun f => (f.1 + 1, f.2) := by
  cases cause with
  | noContext => rfl
  | revoke failure =>
      simp only [stop, List.getElem?_cons_succ]
      split <;> rfl

theorem reached_succ (failure : Option (Nat × PrepareFailure n)) (i : Nat) :
    reached (failure.map fun f => (f.1 + 1, f.2)) (i + 1) = reached failure i := by
  rcases failure with - | ⟨k, cause⟩
  · rfl
  · simp only [reached, Option.map_some, Nat.add_lt_add_iff_right, Nat.add_right_cancel_iff]

theorem reached_zero (failure : Option (Nat × PrepareFailure n)) :
    reached (failure.map fun f => (f.1 + 1, f.2)) 0 = some none := by
  rcases failure with - | ⟨k, cause⟩
  · rfl
  · simp [reached]

/-- Nothing behind the stop is reached. -/
theorem mapIdx_unreached (rest : List (Managed g n)) (cause : PrepareFailure n) :
    (rest.mapIdx fun i m => (reached (some (0, cause)) (i + 1)).elim m m.prepare) = rest := by
  refine List.ext_getElem? fun i => ?_
  rw [List.getElem?_mapIdx]
  cases rest[i]? <;> rfl

/-- What PREPARE_ALL does with a VA space: the blocks before the stop are prepared. -/
theorem prepareBlocks_eq (blocks : List (Managed g n)) (failure : Option (Nat × PrepareFailure n)) :
    prepareBlocks blocks failure =
      (blocks.mapIdx fun i m => (reached (stop blocks failure) i).elim m m.prepare,
        (stop blocks failure).isNone) := by
  induction blocks generalizing failure with
  | nil => rcases failure with - | ⟨k, - | failure⟩ <;> rfl
  | cons m rest ih =>
      rw [List.mapIdx_cons]
      rcases failure with - | ⟨index, cause⟩
      · rw [prepareBlocks, ih]
        rfl
      · cases index with
        | succ k =>
            rw [stop_cons_succ, reached_zero]
            simp only [reached_succ, Option.isNone_map, Option.elim_some]
            rw [prepareBlocks, ih]
        | zero =>
            cases cause with
            | noContext =>
                have hStop : stop (m :: rest) (some (0, .noContext)) = some (0, .noContext) := rfl
                rw [prepareBlocks, hStop, mapIdx_unreached]
                rfl
            | revoke failure =>
                rw [prepareBlocks, prepareBlock_ok]
                by_cases hEmpty : m.block.residentProcessors = []
                · have hStop : stop (m :: rest) (some (0, .revoke failure)) = none := by
                    simp [stop, hEmpty]
                  rw [if_pos (decide_eq_true hEmpty), hStop, m.prepare_empty hEmpty, ih]
                  rfl
                · have hStop : stop (m :: rest) (some (0, .revoke failure)) =
                      some (0, .revoke failure) := by
                    simp [stop, hEmpty]
                  rw [if_neg (by simpa using hEmpty), hStop, mapIdx_unreached]
                  rfl

theorem mem_mapIdx_iff {α β : Type} {l : List α} {f : Nat → α → β} {b : β} :
    b ∈ l.mapIdx f ↔ ∃ i a, l[i]? = some a ∧ f i a = b := by
  rw [List.mem_mapIdx]
  constructor
  · intro ⟨i, hLt, hEq⟩
    exact ⟨i, l[i], List.getElem?_eq_getElem hLt, hEq⟩
  · intro ⟨i, a, hGet, hEq⟩
    obtain ⟨hLt, rfl⟩ := List.getElem?_eq_some_iff.mp hGet
    exact ⟨i, hLt, hEq⟩

theorem forall_mem_mapIdx {α β : Type} {l : List α} {f : Nat → α → β} {P : β → Prop} :
    (∀ b ∈ l.mapIdx f, P b) ↔ ∀ i a, l[i]? = some a → P (f i a) := by
  constructor
  · intro h i a hGet
    exact h _ (mem_mapIdx_iff.mpr ⟨i, a, hGet, rfl⟩)
  · intro h b hMem
    obtain ⟨i, a, hGet, rfl⟩ := mem_mapIdx_iff.mp hMem
    exact h i a hGet

namespace State

variable (s : State g n) (failure : Option (Nat × PrepareFailure n))

/-- The blocks are ready before the stop by their revokes, and from it on they were so
already, as the whole VA space was if there is a stop. -/
def Readied : Prop :=
  (failure ≠ none → s.trackingActive = true) ∧
    ∀ i m, s.blocks[i]? = some m →
      match reached failure i with
      | some f => m.block.RevokedBy f
      | none => m.block.Ready

/-- Every block is tracked at the stop, in a VA space that was active; or there is
none, in one that was not. -/
def FailsWhole : Prop :=
  s.trackingActive = true ∧ (∀ i m, s.blocks[i]? = some m →
      reached failure i = none → m.block.tracked = true) ∨
    s.trackingActive = false ∧ ∀ i m, s.blocks[i]? = some m →
      reached failure i = none ∧ m.block.tracked = false

variable {s failure}

theorem prepare_ok : (s.prepare failure).2 = .ok ↔ stop s.blocks failure = none := by
  rw [prepare, prepareBlocks_eq, ← Option.isNone_iff_eq_none]
  cases (stop s.blocks failure).isNone with
  | true => exact iff_of_true rfl rfl
  | false =>
      refine iff_of_false ?_ (by decide)
      rcases failure with - | ⟨k, - | f⟩ <;> exact (nomatch ·)

theorem prepare_ready :
    (s.prepare failure).1.Ready ↔ s.Readied (stop s.blocks failure) := by
  rw [prepare, prepareBlocks_eq, Ready, Readied]
  apply and_congr
  · cases stop s.blocks failure <;> simp
  · rw [forall_mem_mapIdx]
    refine forall_congr' fun i => forall_congr' fun m => imp_congr_right fun _ => ?_
    cases reached (stop s.blocks failure) i with
    | none => exact Iff.rfl
    | some f => exact prepareBlock_ready f m.block

theorem prepare_whole (hStop : stop s.blocks failure ≠ none) :
    ¬(s.prepare failure).1.PartlyTracked ↔ s.FailsWhole (stop s.blocks failure) := by
  have hActive : (s.trackingActive || (stop s.blocks failure).isNone) = s.trackingActive := by
    cases hFound : stop s.blocks failure with
    | none => exact absurd hFound hStop
    | some _ => simp
  have hTracked (i : Nat) (m : Managed g n) (value : Bool) :
      ((reached (stop s.blocks failure) i).elim m m.prepare).block.tracked = value ↔
        if reached (stop s.blocks failure) i = none then m.block.tracked = value
        else value = true := by
    cases reached (stop s.blocks failure) i with
    | none => simp
    | some f =>
        simp only [Option.elim_some, Managed.prepare, prepareBlock_flags, reduceCtorEq, if_false]
        exact eq_comm
  rw [PartlyTracked, ← not_or, not_not, or_comm, prepare, prepareBlocks_eq, FullyTracked,
    Untracked, hActive, forall_mem_mapIdx, forall_mem_mapIdx, FailsWhole]
  refine or_congr (and_congr_right fun _ => ?_) (and_congr_right fun _ => ?_)
  · refine forall_congr' fun i => forall_congr' fun m => imp_congr_right fun _ => ?_
    rw [hTracked]
    split <;> simp [*]
  · refine forall_congr' fun i => forall_congr' fun m => imp_congr_right fun _ => ?_
    rw [hTracked]
    split <;> simp [*]

end State

namespace Ioctl

variable (spaces : List (State g n))

/-- A space that is stopped is ready already if another one is not stopped, and wholly
tracked or not at all if each is. -/
def Prepares (failures : Nat → Option (Nat × PrepareFailure n)) : Prop :=
  ((∃ i s, spaces[i]? = some s ∧ stop s.blocks (failures i) = none) →
    ∀ i (s : State g n), spaces[i]? = some s → s.Readied (stop s.blocks (failures i))) ∧
  ((∀ i s, spaces[i]? = some s → stop s.blocks (failures i) ≠ none) →
    ∀ i (s : State g n), spaces[i]? = some s → s.FailsWhole (stop s.blocks (failures i)))

/-- The condition. An ioctl that does nothing finds no space partly tracked, and
FINALIZE has a context for each range with a tracked block. -/
def Holds : Ioctl g n → Prop
  | .prepareAll capable snapshot failures =>
      (capable = false ∨ spaces ≠ [] ∧ snapshot = false → ∀ s ∈ spaces, ¬s.PartlyTracked) ∧
        (capable = true ∧ (spaces = [] ∨ snapshot = true) → Prepares spaces failures)
  | .finalize capable noContext _ =>
      (capable = false → ∀ s ∈ spaces, ¬s.PartlyTracked) ∧
        (capable = true → ∀ i s, spaces[i]? = some s → ∀ m ∈ s.blocks,
          noContext i m.rangeId = true → m.block.tracked = false)

variable {spaces}

theorem exec_prepareAll {failures : Nat → Option (Nat × PrepareFailure n)} {snapshot : Bool}
    (hSnapshot : spaces = [] ∨ snapshot = true) :
    exec spaces (.prepareAll true snapshot failures) =
      (if (spaces.mapIdx fun i s => s.prepare (failures i)).any fun r => r.2 = .ok then .ok
        else (spaces.mapIdx fun i s => s.prepare (failures i)).getLast?.elim .warnNothingToDo
          Prod.snd,
        spaces.mapIdx fun i s => (s.prepare (failures i)).1) := by
  have hFst : (spaces.mapIdx fun i s => s.prepare (failures i)).map Prod.fst =
      spaces.mapIdx fun i s => (s.prepare (failures i)).1 := by
    refine List.ext_getElem? fun i => ?_
    rw [List.getElem?_map, List.getElem?_mapIdx, List.getElem?_mapIdx, Option.map_map]
    rfl
  rw [← hFst]
  rcases hSnapshot with rfl | rfl <;> simp [exec]

/-- One prepared VA space is enough for NV_OK. -/
theorem prepareAll_ok {failures : Nat → Option (Nat × PrepareFailure n)} {snapshot : Bool}
    (hSnapshot : spaces = [] ∨ snapshot = true) :
    (exec spaces (.prepareAll true snapshot failures)).1 = .ok ↔
      ∃ i s, spaces[i]? = some s ∧ stop s.blocks (failures i) = none := by
  rw [exec_prepareAll hSnapshot]
  have hAny : ((spaces.mapIdx fun i s => s.prepare (failures i)).any fun r => r.2 = .ok) =
      true ↔ ∃ i s, spaces[i]? = some s ∧ stop s.blocks (failures i) = none := by
    rw [List.any_eq_true]
    constructor
    · intro ⟨r, hMem, hOk⟩
      obtain ⟨i, s, hGet, rfl⟩ := mem_mapIdx_iff.mp hMem
      exact ⟨i, s, hGet, State.prepare_ok.mp (of_decide_eq_true hOk)⟩
    · intro ⟨i, s, hGet, hStop⟩
      exact ⟨_, mem_mapIdx_iff.mpr ⟨i, s, hGet, rfl⟩,
        decide_eq_true (State.prepare_ok.mpr hStop)⟩
  rw [← hAny]
  refine ⟨fun h => ?_, fun h => if_pos h⟩
  by_contra hNone
  rw [if_neg hNone] at h
  cases hLast : (spaces.mapIdx fun i s => s.prepare (failures i)).getLast? with
  | none =>
      rw [hLast] at h
      cases h
  | some r =>
      rw [hLast] at h
      exact hNone (List.any_eq_true.mpr ⟨r, List.mem_of_getLast? hLast, decide_eq_true h⟩)

theorem finalize_untracked {s : State g n} {noContext : Nat → Bool}
    {failures : Nat → Option (Failure n)} :
    State.Untracked ⟨s.blocks.mapIdx fun j m => m.finalize noContext failures j, false⟩ ↔
      ∀ m ∈ s.blocks, noContext m.rangeId = true → m.block.tracked = false := by
  rw [State.Untracked, and_iff_right rfl, forall_mem_mapIdx]
  constructor
  · intro h m hMem hNone
    obtain ⟨j, hGet⟩ := List.mem_iff_getElem?.mp hMem
    have hTracked := h j m hGet
    rwa [Managed.finalize, if_pos hNone] at hTracked
  · intro h j m hGet
    unfold Managed.finalize
    split
    · rename_i hNone
      exact h m (List.mem_of_getElem? hGet) hNone
    · exact finalizeBlock_untracked m.range (failures j) m.block

theorem truthful_prepareAll {failures : Nat → Option (Nat × PrepareFailure n)}
    {snapshot : Bool} (hSnapshot : spaces = [] ∨ snapshot = true) :
    Truthful (.prepareAll true snapshot failures) spaces ↔ Prepares spaces failures := by
  have hSpaces : (exec spaces (.prepareAll true snapshot failures)).2 =
      spaces.mapIdx fun i s => (s.prepare (failures i)).1 := by
    rw [exec_prepareAll hSnapshot]
  have hFails : (exec spaces (.prepareAll true snapshot failures)).1 ≠ .ok ↔
      ∀ i s, spaces[i]? = some s → stop s.blocks (failures i) ≠ none := by
    rw [Ne, prepareAll_ok hSnapshot]
    push Not
    exact Iff.rfl
  rw [Truthful, Prepares, hFails, prepareAll_ok hSnapshot, hSpaces, forall_mem_mapIdx,
    forall_mem_mapIdx, and_comm]
  refine and_congr ?_ (imp_congr_right fun hStops => ?_)
  · simp only [State.prepare_ready]
  · exact forall_congr' fun i => forall_congr' fun s => imp_congr_right fun hGet =>
      State.prepare_whole (hStops i s hGet)

/-- An ioctl that fails before it does anything. -/
theorem truthful_unchanged {call : Ioctl g n} {status : NvStatus}
    (hExec : call.exec spaces = (status, spaces)) (hStatus : status ≠ .ok) :
    call.Truthful spaces ↔ ∀ s ∈ spaces, ¬s.PartlyTracked := by
  rw [Truthful, hExec]
  exact ⟨fun h => h.1 hStatus, fun h => ⟨fun _ => h, fun hOk => absurd hOk hStatus⟩⟩

/-- The status of PREPARE_ALL and FINALIZE is truthful exactly under the condition. -/
theorem truthful_iff (call : Ioctl g n) (spaces : List (State g n)) :
    call.Truthful spaces ↔ call.Holds spaces := by
  cases call with
  | prepareAll capable snapshot failures =>
      rw [Holds]
      by_cases hRuns : capable = true ∧ (spaces = [] ∨ snapshot = true)
      · rw [imp_iff_right hRuns]
        obtain ⟨rfl, hSnapshot⟩ := hRuns
        rw [truthful_prepareAll hSnapshot]
        refine (and_iff_right ?_).symm
        rintro (hFalse | ⟨hSome, rfl⟩)
        · cases hFalse
        · exact absurd hSnapshot (by simp [hSome])
      · have hSkips : capable = false ∨ spaces ≠ [] ∧ snapshot = false := by
          rw [not_and_or, not_or, Bool.not_eq_true, Bool.not_eq_true] at hRuns
          exact hRuns
        rw [imp_iff_right hSkips, and_iff_left fun h => absurd h hRuns]
        rcases hSkips with rfl | ⟨hSome, rfl⟩
        · exact truthful_unchanged rfl (by decide)
        · cases capable with
          | false => exact truthful_unchanged rfl (by decide)
          | true =>
              have hExec : exec spaces (.prepareAll true false failures) = (.noMemory, spaces) := by
                simp [exec, hSome]
              exact truthful_unchanged hExec (by decide)
  | finalize capable noContext failures =>
      rw [Holds]
      cases capable with
      | false =>
          rw [truthful_unchanged rfl (by decide), imp_iff_right rfl]
          exact (and_iff_left fun h => by cases h).symm
      | true =>
          rw [Truthful, imp_iff_right (rfl : true = true)]
          simp only [exec, Bool.not_true, Bool.false_eq_true, if_false, ne_eq, not_true_eq_false,
            false_implies, true_and, true_implies, reduceCtorEq, forall_mem_mapIdx,
            finalize_untracked]

end Ioctl

end Spaces

/-- Two processes with a block each that the GPU can write; there is no context for the
range of the second one. -/
def secondFails : Ioctl 1 2 :=
  .prepareAll true true fun i => if i = 1 then some (0, .noContext) else none

def twoSpaces : List (State 1 2) :=
  [⟨[⟨0, plainRange, gpuBlock, false⟩], false⟩, ⟨[⟨0, plainRange, gpuBlock, false⟩], false⟩]

theorem not_truthful_secondFails : ¬secondFails.Truthful twoSpaces := by
  intro h
  have hReady := h.2 (by decide) ⟨[⟨0, plainRange, gpuBlock, false⟩], false⟩
    (List.mem_cons_of_mem _ List.mem_cons_self)
  exact Bool.false_ne_true hReady.1

end FlashCkpt.Uvm
