import FlashCkpt.Emul.Machine

/-! The recopy protocol of PHOS with the contents it copies. The hooks mark a buffer before
a kernel is launched and behind every other call, and the device executes what was called
at any later time. A round copies all buffers in the background and those marked since its
snapshot once more in a stall. The images are taken as the bytes before they are encrypted. -/
namespace FlashCkpt.Emul.Phos

open Transition

/-- The two images, each with its size if it could be opened, and the staging buffers. -/
structure Images where
  base : Option Nat
  delta : Option Nat
  staging : Staging

/-- A hooked operation that succeeds: a kernel whose parameters are scanned, or a cuBLAS call,
or a copy or a set of at least a byte, which is marked by its destination. The bytes that it
writes need not be in order. -/
inductive Request where
  | kernel (params : List Nat) (writes : List (Nat × UInt8))
  | call (dst : Nat) (writes : List (Nat × UInt8))
  deriving DecidableEq, Repr

namespace Request

def marks : Request → List Nat
  | .kernel params _ => params
  | .call dst _ => [dst]

def writes : Request → List (Nat × UInt8)
  | .kernel _ writes | .call _ writes => writes

def isKernel : Request → Bool
  | .kernel _ _ => true
  | .call _ _ => false

end Request

/-- An operation: the addresses still to be marked, the writes that the device has still to
execute, and the addresses that it has written since Phase 2 last began. -/
structure Op where
  isKernel : Bool
  launched : Bool
  pending : List Nat
  remaining : List (Nat × UInt8)
  done : List Nat
  deriving DecidableEq, Repr

/-- Where a round is: at an entry of the loop in `snapshot_live_allocs`, before and in Phase 2
with the bytes still to be copied, before Phase 4, in the two passes of its `build_chunks`
with the chunks counted and filled in, and in its copies. -/
inductive RoundAt where
  | idle
  | snapshot (k : Nat)
  | precopy
  | copying (todo : List (Nat × Nat))
  | copied
  | count (k n : Nat)
  | fill (k n : Nat) (chunks : List Chunk)
  | recopying (todo : List (Nat × Nat))
  deriving DecidableEq, Repr

/-- The process and the device. The last fields are the records recopied in this round, and
the memory and what was mapped at its stall. -/
structure Session extends State PhosFlags where
  memory : Nat → UInt8
  base : Nat → UInt8
  delta : Nat → UInt8
  ops : Nat → Op
  round : RoundAt
  snaps : List SnapEnt
  chosen : List Nat
  stalled : Nat → UInt8
  live : List Mapping

def Op.idle : Op := ⟨false, true, [], [], []⟩

/-- A process that has called nothing, with any contents of the memory and the images. -/
def Session.start (memory base delta : Nat → UInt8) : Session :=
  { toState := State.init, memory, base, delta, ops := fun _ => .idle, round := .idle, snaps := [],
    chosen := [], stalled := memory, live := [] }

inductive Event where
  | call (c : Call)
  | issue (o : Nat) (request : Request)
  | launch (o : Nat)
  | mark (o : Nat)
  | execute (o j : Nat)
  | advance
  | copy (j : Nat)
  | giveUp
  deriving DecidableEq, Repr

/-- Every byte written lies in no mapping or in one that is marked. -/
def Finds (mapped : List Mapping) (request : Request) : Prop :=
  ∀ w ∈ request.writes, ∀ m ∈ mapped, m.Covers w.1 → ∃ a ∈ request.marks, m.Covers a

instance (mapped : List Mapping) (request : Request) : Decidable (Finds mapped request) :=
  inferInstanceAs (Decidable (∀ w ∈ request.writes, ∀ m ∈ mapped, _ → ∃ a ∈ request.marks, _))

/-- The bytes of a chunk, with their places in the image. -/
def Chunk.moves (c : Chunk) : List (Nat × Nat) :=
  (List.range c.size).map fun k => (c.va + k, c.imgOff + k)

/-- `record_alloc` waits for the lock that the snapshot holds, and the frees wait for the end
of the round. -/
def RoundAt.permits : RoundAt → Call → Bool
  | .snapshot _, .alloc _ _ _ => false
  | _, .alloc _ _ _ => true
  | .idle, _ => true
  | _, _ => false

/-- The record of the mapping is flagged. -/
def Marked (t : Table PhosFlags) (m : Mapping) : Prop :=
  ∃ i e, m.outcome.record = some i ∧ t.allocs[i]? = some e ∧ e.flags.dirtyThisRound = true

namespace Session

variable (images : Images) (s : Session)

def setOp (o : Nat) (op : Op) : Session := { s with ops := Function.update s.ops o op }

/-- The chunks of one entry that Phase 4 takes. -/
def dirtyChunks (snap : SnapEnt) : List Chunk :=
  buildChunks s.table.allocs [snap] images.staging.bytes true

/-- An entry of the loop in `snapshot_live_allocs`. -/
def snapshotEntry (k : Nat) (e : Alloc PhosFlags) : Session :=
  if e.alive then
    { s with
      table.allocs := s.table.allocs.modify k (setDirty false)
      snaps := s.snaps ++ [⟨e.toRegion, k⟩]
      round := .snapshot (k + 1) }
  else { s with round := .snapshot (k + 1) }

/-- The next step of the round, in Phase 1, in the background or in Phase 4. A pass that would
write behind the array of chunks has none. -/
def advance : Option Session :=
  match s.round with
  | .idle => some { s with round := .snapshot 0, snaps := [] }
  | .snapshot k =>
      match s.table.allocs[k]? with
      | none => some { s with round := .precopy }
      | some e => some (s.snapshotEntry k e)
  | .precopy =>
      let chunks := buildChunks s.table.allocs s.snaps images.staging.bytes false
      some { s with
        ops := fun o => { s.ops o with done := [] }
        round := .copying (chunks.flatMap Chunk.moves) }
  | .copying todo => if todo = [] then some { s with round := .copied } else none
  | .copied => some { s with
      round := .count 0 0
      chosen := []
      stalled := s.memory
      live := s.mapped }
  | .count k n =>
      match s.snaps[k]? with
      | none => some { s with round := if n = 0 then .recopying [] else .fill 0 n [] }
      | some snap =>
          some { s with round := .count (k + 1) (n + (s.dirtyChunks images snap).length) }
  | .fill k n chunks =>
      match s.snaps[k]? with
      | none => some { s with round := .recopying (chunks.flatMap Chunk.moves) }
      | some snap =>
          let more := s.dirtyChunks images snap
          if chunks.length + more.length ≤ n then
            some { s with
              round := .fill (k + 1) n (chunks ++ more)
              chosen := if more = [] then s.chosen else s.chosen ++ [snap.idx] }
          else none
  | .recopying todo => if todo = [] then some { s with round := .idle } else none

/-- One byte is copied to the base in Phase 2 and to the delta in Phase 4. -/
def copy (j : Nat) : Option Session :=
  match s.round with
  | .copying todo => todo[j]?.map fun (addr, off) =>
      { s with
        base := Function.update s.base off (s.memory addr)
        round := .copying (todo.eraseIdx j) }
  | .recopying todo => todo[j]?.bind fun (addr, off) =>
      match images.delta with
      | none => some { s with round := .recopying (todo.eraseIdx j) }
      | some total =>
          if off < total then
            some { s with
              delta := Function.update s.delta off (s.memory addr)
              round := .recopying (todo.eraseIdx j) }
          else none
  | _ => none

/-- A phase cannot get its buffers or its stream, or a copy fails: the round goes on. -/
def giveUp : Option Session :=
  match s.round with
  | .precopy | .copying _ => some { s with round := .copied }
  | .count _ _ | .fill _ _ _ | .recopying _ => some { s with round := .recopying [] }
  | _ => none

/-- A step of an application thread, of the device or of the round. -/
def next : Event → Option Session
  | .call c =>
      if s.round.permits c then
        (Emul.next phos images.base s.toState c).map fun state => { s with toState := state }
      else none
  | .issue o request =>
      if (s.ops o).pending = [] ∧ (s.ops o).remaining = [] ∧
          (request.isKernel = true → Finds s.mapped request) then
        some (s.setOp o ⟨request.isKernel, false, request.marks, request.writes, []⟩)
      else none
  | .launch o =>
      if (s.ops o).launched = false ∧ ((s.ops o).isKernel = true → (s.ops o).pending = []) then
        some (s.setOp o { s.ops o with launched := true })
      else none
  | .mark o =>
      match (s.ops o).pending with
      | [] => none
      | a :: rest =>
          if (s.ops o).launched = !(s.ops o).isKernel then
            some { s.setOp o { s.ops o with pending := rest } with table := markDirtyVa a s.table }
          else none
  | .execute o j =>
      if (s.ops o).launched then
        (s.ops o).remaining[j]?.map fun (addr, byte) =>
          { s.setOp o { s.ops o with
              remaining := (s.ops o).remaining.eraseIdx j
              done := addr :: (s.ops o).done } with
            memory := Function.update s.memory addr byte }
      else none
  | .advance => s.advance images
  | .copy j => s.copy images j
  | .giveUp => s.giveUp

/-- In the images each allocation that was live at the stall has its contents of then: in
the delta if it was recopied, and in the base if not. -/
def Consistent : Prop :=
  ∀ m ∈ s.live, ∃ i off, m.outcome.record = some i ∧ m.outcome.slot = some off ∧
    ∀ k < m.size, (if i ∈ s.chosen then s.delta else s.base) (off + k) = s.stalled (m.va + k)

/-- An operation has a write to the mapping left and its mark of it behind it. -/
def Outstanding (m : Mapping) : Prop :=
  ∃ o, (∃ w ∈ (s.ops o).remaining, m.Covers w.1) ∧ ∀ a ∈ (s.ops o).pending, ¬m.Covers a

/-- Since Phase 2 began an operation has written to the mapping whose mark of it is to come. -/
def Racing (m : Mapping) : Prop :=
  ∃ o, (∃ a ∈ (s.ops o).done, m.Covers a) ∧ ∃ a ∈ (s.ops o).pending, m.Covers a

/-- Phase 4 has still to read the byte. -/
def StillReads (addr : Nat) : Prop :=
  match s.round with
  | .count _ _ | .fill _ _ _ => ∃ snap ∈ s.snaps, snap.Covers addr
  | .recopying todo => ∃ off, (addr, off) ∈ todo
  | _ => False

/-- Between the snapshot and the stall. -/
def InWindow : Prop :=
  match s.round with
  | .precopy | .copying _ | .copied => True
  | _ => False

/-- An allocation gets its record and its slot, and none is made between the snapshot and
the stall. A call writes to the allocation of its destination only. When Phase 2 begins, an
allocation with a write left whose mark was made is still flagged, and when Phase 4 reads a
flag no write of Phase 2 has its mark to come. In the stall nothing is written that is still
read. The phases copy all their bytes. -/
def Orderly : Event → Prop
  | .call c => Fits phos images.base s.toState c ∧
      ∀ vmm va size, c = .alloc vmm va size → va ≠ 0 → images.base ≠ none ∧ ¬s.InWindow
  | .issue _ (.call dst writes) => Finds s.mapped (.call dst writes)
  | .execute o j => ∀ w, (s.ops o).remaining[j]? = some w → ¬s.StillReads w.1
  | .advance =>
      match s.round with
      | .precopy => ∀ m ∈ s.mapped, s.Outstanding m → Marked s.table m
      | .count k _ => ∀ snap, s.snaps[k]? = some snap →
          ∀ m ∈ s.live, m.outcome.record = some snap.idx → ¬s.Racing m
      | _ => True
  | .copy _ =>
      match s.round with
      | .recopying _ => images.delta ≠ none
      | _ => True
  | .giveUp =>
      match s.round with
      | .precopy => buildChunks s.table.allocs s.snaps images.staging.bytes false = []
      | .copying todo | .recopying todo => todo = []
      | _ => False
  | _ => True

end Session

/-- A byte of the mapping, with its place in the image. -/
def Places (m : Mapping) (addr pos : Nat) : Prop :=
  ∃ off, m.outcome.slot = some off ∧ ∃ k < m.size, addr = m.va + k ∧ pos = off + k

variable {images : Images} {image : Option Nat} {state : State PhosFlags} {t : Table PhosFlags}
  {s s' : Session} {m n : Mapping}

theorem Places.covers {addr pos : Nat} (h : Places m addr pos) : m.Covers addr := by
  obtain ⟨_, _, k, hk, rfl, _⟩ := h
  exact ⟨Nat.le_add_right _ _, by omega⟩

theorem getElem?_modify_flag (dirty : Bool) (k i : Nat) {e : Alloc PhosFlags}
    (he : t.allocs[i]? = some e) :
    (t.allocs.modify k (setDirty dirty))[i]? = some (if k = i then setDirty dirty e else e) := by
  by_cases hSame : k = i <;> simp [hSame, he]

theorem of_getElem?_modify_flag {dirty : Bool} {k i : Nat} {e' : Alloc PhosFlags}
    (he' : (t.allocs.modify k (setDirty dirty))[i]? = some e') :
    ∃ e, t.allocs[i]? = some e ∧ e' = if k = i then setDirty dirty e else e := by
  rw [List.getElem?_modify] at he'
  cases he : t.allocs[i]? with
  | none => simp [he] at he'
  | some e =>
      refine ⟨e, rfl, ?_⟩
      by_cases hSame : k = i
      · simpa [hSame, he] using he'.symm
      · simpa [hSame, he] using he'.symm

/-- A flag is written: the table is as good as it was. -/
theorem inv_flag (h : Inv image state) (dirty : Bool) (k : Nat) :
    Inv image { state with table.allocs := state.table.allocs.modify k (setDirty dirty) } where
  owned := by
    refine ⟨h.owned.pos, h.owned.apart, ?_, ?_⟩
    · intro m hm
      obtain ⟨i, e, hRecord, he, hAlive, hRegion⟩ := h.owned.record m hm
      refine ⟨i, _, hRecord, getElem?_modify_flag dirty k i he, ?_, ?_⟩ <;> split <;> assumption
    · intro i e' he' hAlive
      obtain ⟨e, he, rfl⟩ := of_getElem?_modify_flag he'
      have hOld : e.alive = true := by
        split at hAlive <;> exact hAlive
      obtain ⟨m, hm, hRecord, hRegion⟩ := h.owned.mapping i e he hOld
      refine ⟨m, hm, hRecord, ?_⟩
      split <;> exact hRegion
  packed := by
    have hSlot : ∀ e : Alloc PhosFlags, (setDirty dirty e).slot = e.slot := fun _ => rfl
    have hSlots := slots_modify hSlot k state.table
    refine ⟨?_, ?_, h.packed.inside⟩
    · rw [hSlots]
      exact h.packed.below
    · rw [hSlots]
      exact h.packed.apart
  slotted := h.slotted

theorem recorded_flag (h : Recorded state) (dirty : Bool) (k : Nat) :
    Recorded { state with table.allocs := state.table.allocs.modify k (setDirty dirty) } where
  pos := h.pos
  apart := h.apart
  record := by
    intro m hm i hRecord
    obtain ⟨e, he, hRegion, hSlot⟩ := h.record m hm i hRecord
    refine ⟨_, getElem?_modify_flag dirty k i he, ?_, ?_⟩ <;> split <;> assumption

/-- What is marked stays so when another record is written or a flag is set. -/
theorem Marked.flag (h : Marked t m) {dirty : Bool} {k : Nat}
    (hKeep : dirty = true ∨ m.outcome.record ≠ some k) :
    Marked { t with allocs := t.allocs.modify k (setDirty dirty) } m := by
  obtain ⟨i, e, hRecord, he, hDirty⟩ := h
  refine ⟨i, _, hRecord, getElem?_modify_flag dirty k i he, ?_⟩
  split
  · next hSame =>
      rcases hKeep with hKeep | hKeep
      · exact hKeep
      · exact (hKeep (hSame ▸ hRecord)).elim
  · exact hDirty

theorem markDirtyVa_cases (a : Nat) (t : Table PhosFlags) :
    (t.findAllocIdx a = none ∧ markDirtyVa a t = t) ∨
      ∃ k, t.findAllocIdx a = some k ∧
        markDirtyVa a t = { t with allocs := t.allocs.modify k (setDirty true) } := by
  rw [markDirtyVa, Table.updateAt]
  cases hFind : t.findAllocIdx a with
  | none => exact .inl ⟨rfl, rfl⟩
  | some k => exact .inr ⟨k, rfl, rfl⟩

theorem Marked.markDirtyVa (h : Marked t m) (a : Nat) : Marked (markDirtyVa a t) m := by
  rcases markDirtyVa_cases a t with ⟨_, hSame⟩ | ⟨k, _, hFlag⟩
  · rwa [hSame]
  · rw [hFlag]
    exact h.flag (.inl rfl)

/-- The hook marks the mapping of the address. -/
theorem marked_markDirtyVa (h : Inv image state) (hm : m ∈ state.mapped) {a : Nat}
    (hCovers : m.Covers a) : Marked (markDirtyVa a state.table) m := by
  obtain ⟨i, e, hRecord, he, _, _⟩ := h.owned.record m hm
  have hFound := (h.owned.find_of_covers hm hCovers).trans hRecord
  rcases markDirtyVa_cases a state.table with ⟨hNone, _⟩ | ⟨k, hSome, hFlag⟩
  · cases hNone.symm.trans hFound
  · cases hSome.symm.trans hFound
    rw [hFlag]
    refine ⟨i, _, hRecord, getElem?_modify_flag true i i he, ?_⟩
    rw [if_pos rfl]
    rfl

/-- A record that is retired keeps its flag. -/
theorem Marked.retire (h : Marked t m) (addr : Nat) : Marked (t.retireAlloc addr) m := by
  obtain ⟨i, e, hRecord, he, hDirty⟩ := h
  rw [Table.retireAlloc, Table.updateAt]
  split
  · exact ⟨i, e, hRecord, he, hDirty⟩
  · cases t.findAllocIdx addr with
    | none => exact ⟨i, e, hRecord, he, hDirty⟩
    | some j =>
        by_cases hij : j = i
        · exact ⟨i, e.retired, hRecord, by simp [hij, he], hDirty⟩
        · exact ⟨i, e, hRecord, by simp [hij, he], hDirty⟩

theorem Marked.append (h : Marked t m) (r : Region) : Marked (phos.append image r t).2 m := by
  obtain ⟨i, e, hRecord, he, hDirty⟩ := h
  rw [Marked, append_allocs]
  split
  · have hLt := (List.getElem?_eq_some_iff.mp he).1
    exact ⟨i, e, hRecord, by rw [List.getElem?_append_left hLt, he], hDirty⟩
  · exact ⟨i, e, hRecord, he, hDirty⟩

/-- A new allocation is marked, and has its slot if there is an image with room. -/
theorem marked_new {r : Region} {vmm : Bool} (hRoom : t.allocs.length < phos.maxAllocs) :
    Marked (phos.append image r t).2 ⟨r, vmm, (phos.append image r t).1⟩ := by
  refine ⟨t.allocs.length, ⟨r, (phos.reserveSlot image r.size t).1, true, phos.fresh⟩, ?_, ?_, rfl⟩
  · dsimp only
    rw [append_record, if_pos hRoom]
  · rw [append_allocs, if_pos hRoom, List.getElem?_concat_length]

theorem slot_new {r : Region} (hSize : r.size ≠ 0) {total : Nat}
    (hRoom : t.imageUsed + r.size ≤ total) :
    (phos.append (some total) r t).1.slot = some t.imageUsed := by
  rw [append_slot]
  simp [Shim.reserveSlot, hSize, Nat.not_lt.mpr hRoom]

/-- What holds at all times: the table mirrors the mappings, each with its slot. -/
structure Ready (images : Images) (s : Session) : Prop where
  inv : Inv images.base s.toState
  recorded : Recorded s.toState
  slotted : ∀ m ∈ s.mapped, m.outcome.slot ≠ none

theorem ready_start (images : Images) (memory base delta : Nat → UInt8) :
    Ready images (.start memory base delta) where
  inv := inv_init images.base
  recorded := recorded_init
  slotted := fun _ hm => absurd hm List.not_mem_nil

theorem Ready.of_same (h : Ready images s) (hState : s'.toState = s.toState) : Ready images s' where
  inv := hState ▸ h.inv
  recorded := hState ▸ h.recorded
  slotted := hState ▸ h.slotted

/-- A flag is written. -/
theorem Ready.flag (h : Ready images s) {dirty : Bool} {k : Nat}
    (hTable : s'.table = { s.table with allocs := s.table.allocs.modify k (setDirty dirty) })
    (hMapped : s'.mapped = s.mapped) : Ready images s' := by
  have hState : s'.toState =
      { s.toState with table.allocs := s.table.allocs.modify k (setDirty dirty) } := by
    cases hEq : s'.toState with
    | mk table mapped =>
        rw [hEq] at hTable hMapped
        rw [show table = _ from hTable, show mapped = _ from hMapped]
  exact ⟨hState ▸ inv_flag h.inv dirty k, hState ▸ recorded_flag h.recorded dirty k,
    hMapped ▸ h.slotted⟩

theorem Ready.call (h : Ready images s) {c : Call} {state : State PhosFlags}
    (hOrderly : s.Orderly images (.call c)) (hNext : Emul.next phos images.base s.toState c = some state) :
    Ready images { s with toState := state } := by
  obtain ⟨hFits, hImage⟩ := hOrderly
  refine ⟨h.inv.next hFits hNext, h.recorded.next hNext, ?_⟩
  cases c with
  | alloc vmm va size =>
      rcases next_alloc hNext with ⟨_, rfl⟩ | ⟨hVa, hSize, _, rfl⟩
      · exact h.slotted
      · obtain ⟨_, hSlot⟩ := hFits (Nat.ne_of_gt hVa) (Nat.ne_of_gt hSize)
        obtain ⟨total, hTotal⟩ :=
          Option.ne_none_iff_exists'.mp (hImage vmm va size rfl (Nat.ne_of_gt hVa)).1
        have hFree : s.table.imageUsed + size ≤ total := by
          rcases hSlot total hTotal with hFree | ⟨hWarns, _⟩
          · exact hFree
          · cases hWarns
        intro m hm
        rcases List.mem_append.mp hm with hm | hm
        · exact h.slotted m hm
        · cases List.mem_singleton.mp hm
          dsimp only
          rw [hTotal, slot_new (r := ⟨va, size⟩) (Nat.ne_of_gt hSize) hFree]
          exact Option.some_ne_none _
  | free va =>
      obtain ⟨_, rfl⟩ := next_free hNext
      exact fun m hm => h.slotted m (List.mem_of_mem_filter hm)
  | unmap va size =>
      obtain ⟨_, _, rfl⟩ := next_unmap hNext
      exact fun m hm => h.slotted m (List.mem_of_mem_filter hm)

/-- The record of a mapping, with its slot. -/
theorem Ready.record (h : Ready images s) (hm : m ∈ s.mapped) :
    ∃ i off e, m.outcome.record = some i ∧ m.outcome.slot = some off ∧ s.table.allocs[i]? = some e ∧
      e.alive = true ∧ e.toRegion = m.toRegion ∧ e.imgOffset = some off := by
  obtain ⟨i, e, hRecord, he, hAlive, hRegion⟩ := h.inv.owned.record m hm
  obtain ⟨off, hOff⟩ := Option.ne_none_iff_exists'.mp (h.slotted m hm)
  obtain ⟨e', he', _, hSlot⟩ := h.recorded.record m hm i hRecord
  cases he.symm.trans he'
  exact ⟨i, off, e, hRecord, hOff, he, hAlive, hRegion, hSlot.trans hOff⟩

/-- No place in the image belongs to two bytes. -/
theorem Ready.places_inj (h : Ready images s) (hm : m ∈ s.mapped) (hn : n ∈ s.mapped) {a b pos : Nat}
    (ha : Places m a pos) (hb : Places n b pos) : a = b := by
  obtain ⟨i, off, e, _, hOff, he, _, hRegion, hSlot⟩ := h.record hm
  obtain ⟨j, off', f, _, hOff', hf, _, hRegion', hSlot'⟩ := h.record hn
  obtain ⟨_, hOff₁, k, hk, rfl, rfl⟩ := ha
  obtain ⟨_, hOff₂, k', hk', rfl, hPos⟩ := hb
  cases hOff.symm.trans hOff₁
  cases hOff'.symm.trans hOff₂
  have hIndex : i = j := by
    refine h.inv.packed.eq_of_covers he hf hSlot hSlot' (off + k) ⟨Nat.le_add_right _ _, ?_⟩
      ⟨by dsimp only; omega, ?_⟩
    · rw [hRegion]
      exact Nat.add_lt_add_left hk off
    · rw [hRegion', hPos]
      exact Nat.add_lt_add_left hk' off'
  cases hIndex
  cases he.symm.trans hf
  cases hSlot.symm.trans hSlot'
  rw [← hRegion, ← hRegion']
  omega

/-- The mapping is marked, or will be by an operation that has written to it. -/
def Session.Noted (s : Session) (m : Mapping) : Prop := Marked s.table m ∨ s.Racing m

/-- A write that is left is to a mapping that is marked or will be. -/
def Session.Accounted (s : Session) : Prop :=
  ∀ o, ∀ w ∈ (s.ops o).remaining, ∀ m ∈ s.mapped, m.Covers w.1 →
    Marked s.table m ∨ ∃ a ∈ (s.ops o).pending, m.Covers a

/-- What the application and the device do while a round is under way. -/
structure Runs (s s' : Session) : Prop where
  base : s'.base = s.base
  delta : s'.delta = s.delta
  round : s'.round = s.round
  snaps : s'.snaps = s.snaps
  chosen : s'.chosen = s.chosen
  stalled : s'.stalled = s.stalled
  live : s'.live = s.live
  mapped : ∀ m ∈ s.mapped, m ∈ s'.mapped
  /-- An allocation is made in the stall only. -/
  same : s'.mapped = s.mapped ∨ (∃ k n, s.round = .count k n) ∨
    (∃ k n chunks, s.round = .fill k n chunks) ∨ ∃ todo, s.round = .recopying todo
  marked : ∀ m ∈ s.mapped, Marked s.table m → Marked s'.table m
  noted : ∀ m ∈ s.mapped, s.Noted m → s'.Noted m
  accounted : s.Accounted → s'.Accounted
  memory : s.Accounted → ∀ m ∈ s.mapped, ∀ a, m.Covers a → s'.memory a = s.memory a ∨ s'.Noted m
  still : ∀ a, s.StillReads a → s'.memory a = s.memory a

theorem Runs.refl (s : Session) : Runs s s where
  base := rfl
  delta := rfl
  round := rfl
  snaps := rfl
  chosen := rfl
  stalled := rfl
  live := rfl
  mapped := fun _ hm => hm
  same := .inl rfl
  marked := fun _ _ h => h
  noted := fun _ _ h => h
  accounted := fun h => h
  memory := fun _ _ _ _ _ => .inl rfl
  still := fun _ _ => rfl

/-- An operation goes on; one that was racing still is. -/
theorem Session.Racing.setOp (h : s.Racing m) {o : Nat} {op : Op}
    (hOp : (∃ a ∈ (s.ops o).done, m.Covers a) → (∃ a ∈ (s.ops o).pending, m.Covers a) →
      (∃ a ∈ op.done, m.Covers a) ∧ ∃ a ∈ op.pending, m.Covers a) : (s.setOp o op).Racing m := by
  obtain ⟨o', hDone, hPending⟩ := h
  refine ⟨o', ?_⟩
  dsimp only [Session.setOp]
  by_cases hSame : o' = o
  · rw [hSame, Function.update_self]
    exact hOp (hSame ▸ hDone) (hSame ▸ hPending)
  · rw [Function.update_of_ne hSame]
    exact ⟨hDone, hPending⟩

theorem Session.Accounted.setOp (h : s.Accounted) {o : Nat} {op : Op}
    (hOp : ∀ w ∈ op.remaining, ∀ m ∈ s.mapped, m.Covers w.1 →
      Marked s.table m ∨ ∃ a ∈ op.pending, m.Covers a) : (s.setOp o op).Accounted := by
  intro o' w hw m hm hCovers
  dsimp only [Session.setOp] at hw ⊢
  by_cases hSame : o' = o
  · rw [hSame, Function.update_self] at hw ⊢
    exact hOp w hw m hm hCovers
  · rw [Function.update_of_ne hSame] at hw ⊢
    exact h o' w hw m hm hCovers

/-- An event of the application or the device keeps what holds at all times. While a round
is under way it is a run beside it. -/
structure Beside (images : Images) (s s' : Session) : Prop where
  ready : Ready images s'
  runs : s.round = .idle ∧ s'.round = .idle ∨ Runs s s'

/-- The operations do not see a new allocation, which is marked. -/
theorem beside_call (h : Ready images s) {c : Call} (hOrderly : s.Orderly images (.call c))
    (hNext : s.next images (.call c) = some s') : Beside images s s' := by
  simp only [Session.next, Option.ite_none_right_eq_some] at hNext
  obtain ⟨hPermits, hNext⟩ := hNext
  obtain ⟨state, hState, rfl⟩ := Option.map_eq_some_iff.mp hNext
  refine ⟨h.call hOrderly hState, ?_⟩
  by_cases hIdle : s.round = .idle
  · exact .inl ⟨hIdle, hIdle⟩
  · right
    cases c with
    | alloc vmm va size =>
        rcases next_alloc hState with ⟨_, rfl⟩ | ⟨hVa, hSize, _, rfl⟩
        · exact .refl s
        · have hWindow := (hOrderly.2 vmm va size rfl (Nat.ne_of_gt hVa)).2
          have hRoom := (hOrderly.1 (Nat.ne_of_gt hVa) (Nat.ne_of_gt hSize)).1
          have hMarked {m : Mapping} (hMarked : Marked s.table m) :
              Marked (phos.append images.base ⟨va, size⟩ s.table).2 m := hMarked.append ⟨va, size⟩
          refine { Runs.refl s with
            mapped := fun m hm => List.mem_append_left _ hm
            same := ?_
            marked := fun m _ => hMarked
            noted := fun m _ hNoted => hNoted.imp_left hMarked
            accounted := ?_
            memory := fun _ _ _ _ _ => .inl rfl }
          · right
            cases hRound : s.round with
            | idle => exact (hIdle hRound).elim
            | snapshot k =>
                rw [hRound] at hPermits
                cases hPermits
            | precopy | copying _ | copied => exact (hWindow (by simp [Session.InWindow, hRound])).elim
            | count k n => exact .inl ⟨k, n, rfl⟩
            | fill k n chunks => exact .inr (.inl ⟨k, n, chunks, rfl⟩)
            | recopying todo => exact .inr (.inr ⟨todo, rfl⟩)
          · intro hAccounted o w hw m hm hCovers
            rcases List.mem_append.mp hm with hm | hm
            · exact (hAccounted o w hw m hm hCovers).imp_left hMarked
            · cases List.mem_singleton.mp hm
              exact .inl (marked_new hRoom)
    | free va | unmap va size =>
        exfalso
        cases hRound : s.round <;> rw [hRound] at hPermits hIdle <;>
          first | exact hIdle rfl | cases hPermits

theorem beside_issue (h : Ready images s) {o : Nat} {request : Request}
    (hOrderly : s.Orderly images (.issue o request))
    (hNext : s.next images (.issue o request) = some s') : Beside images s s' := by
  simp only [Session.next, Option.ite_none_right_eq_some, Option.some.injEq] at hNext
  obtain ⟨⟨hPending, _, hKernel⟩, rfl⟩ := hNext
  have hFinds : Finds s.mapped request := by
    cases request with
    | kernel params writes => exact hKernel rfl
    | call dst writes => exact hOrderly
  refine ⟨h.of_same rfl, .inr { Runs.refl s with noted := ?_, accounted := ?_, memory := ?_ }⟩
  · intro m _ hNoted
    refine hNoted.imp_right fun hRacing => hRacing.setOp fun _ hNone => ?_
    rw [hPending] at hNone
    obtain ⟨a, ha, _⟩ := hNone
    cases ha
  · exact fun hAccounted => hAccounted.setOp fun w hw m hm hCovers => .inr (hFinds w hw m hm hCovers)
  · exact fun _ _ _ _ _ => .inl rfl

theorem beside_launch (h : Ready images s) {o : Nat}
    (hNext : s.next images (.launch o) = some s') : Beside images s s' := by
  simp only [Session.next, Option.ite_none_right_eq_some, Option.some.injEq] at hNext
  obtain ⟨_, rfl⟩ := hNext
  refine ⟨h.of_same rfl, .inr { Runs.refl s with noted := ?_, accounted := ?_, memory := ?_ }⟩
  · exact fun m _ hNoted => hNoted.imp_right fun hRacing => hRacing.setOp fun hDone hPending =>
      ⟨hDone, hPending⟩
  · exact fun hAccounted => hAccounted.setOp (hAccounted o)
  · exact fun _ _ _ _ _ => .inl rfl

/-- A mark that is made is off the list of those to come, and the mapping is marked. -/
theorem beside_mark (h : Ready images s) {o : Nat} (hNext : s.next images (.mark o) = some s') :
    Beside images s s' := by
  simp only [Session.next] at hNext
  cases hPending : (s.ops o).pending with
  | nil => simp [hPending] at hNext
  | cons a rest =>
      simp only [hPending, Option.ite_none_right_eq_some, Option.some.injEq] at hNext
      obtain ⟨_, rfl⟩ := hNext
      have hKeeps {m : Mapping} (hMarked : Marked s.table m) := hMarked.markDirtyVa a
      have hMarks {m : Mapping} (hm : m ∈ s.mapped) (hCovers : m.Covers a) :=
        marked_markDirtyVa h.inv hm hCovers
      have hLeft {m : Mapping} (hm : m ∈ s.mapped) (hMark : ∃ b ∈ a :: rest, m.Covers b) :
          Marked (markDirtyVa a s.table) m ∨ ∃ b ∈ rest, m.Covers b := by
        obtain ⟨b, hb, hCovers⟩ := hMark
        rcases List.mem_cons.mp hb with rfl | hb
        · exact .inl (hMarks hm hCovers)
        · exact .inr ⟨b, hb, hCovers⟩
      refine ⟨?_, .inr { Runs.refl s with
        marked := fun m _ => hKeeps, noted := ?_, accounted := ?_, memory := fun _ _ _ _ _ => .inl rfl }⟩
      · rcases markDirtyVa_cases a s.table with ⟨_, hSame⟩ | ⟨k, _, hFlag⟩
        · apply h.of_same
          rw [hSame]
          rfl
        · exact h.flag hFlag rfl
      · intro m hm hNoted
        rcases hNoted with hMarked | ⟨o', hDone, hRacing⟩
        · exact .inl (hKeeps hMarked)
        · by_cases hSame : o' = o
          · rw [hSame] at hDone hRacing
            rw [hPending] at hRacing
            rcases hLeft hm hRacing with hMarked | hRest
            · exact .inl hMarked
            · exact .inr ⟨o, by simpa [Session.setOp] using hDone, by simpa [Session.setOp] using hRest⟩
          · refine .inr ⟨o', ?_, ?_⟩ <;> dsimp only [Session.setOp] <;>
              rwa [Function.update_of_ne hSame]
      · intro hAccounted o' w hw m hm hCovers
        dsimp only [Session.setOp] at hw ⊢
        by_cases hSame : o' = o
        · rw [hSame, Function.update_self] at hw ⊢
          rcases hAccounted o w hw m hm hCovers with hMarked | hMark
          · exact .inl (hKeeps hMarked)
          · exact hLeft hm (hPending ▸ hMark)
        · rw [Function.update_of_ne hSame] at hw ⊢
          exact (hAccounted o' w hw m hm hCovers).imp_left hKeeps

/-- A write that is executed is to a mapping that is marked or, from here on, races. -/
theorem beside_execute (h : Ready images s) {o j : Nat} (hOrderly : s.Orderly images (.execute o j))
    (hNext : s.next images (.execute o j) = some s') : Beside images s s' := by
  simp only [Session.next, Option.ite_none_right_eq_some] at hNext
  obtain ⟨_, hNext⟩ := hNext
  obtain ⟨⟨addr, byte⟩, hWrite, rfl⟩ := Option.map_eq_some_iff.mp hNext
  have hRemains {w : Nat × UInt8} (hw : w ∈ (s.ops o).remaining.eraseIdx j) := List.mem_of_mem_eraseIdx hw
  refine ⟨h.of_same rfl, .inr { Runs.refl s with noted := ?_, accounted := ?_, memory := ?_, still := ?_ }⟩
  · intro m _ hNoted
    refine hNoted.imp_right fun hRacing => hRacing.setOp fun hDone hPending => ⟨?_, hPending⟩
    obtain ⟨a, ha, hCovers⟩ := hDone
    exact ⟨a, List.mem_cons_of_mem addr ha, hCovers⟩
  · exact fun hAccounted => hAccounted.setOp fun w hw => hAccounted o w (hRemains hw)
  · intro hAccounted m hm a hCovers
    by_cases hAddr : a = addr
    · cases hAddr
      right
      rcases hAccounted o (addr, byte) (List.mem_of_getElem? hWrite) m hm hCovers with hMarked | hPending
      · exact .inl hMarked
      · refine .inr ⟨o, ?_, ?_⟩ <;> dsimp only [Session.setOp] <;> rw [Function.update_self]
        · exact ⟨addr, List.mem_cons_self, hCovers⟩
        · exact hPending
    · exact .inl (Function.update_of_ne hAddr _ _)
  · intro a hReads
    have hNe : a ≠ addr := by
      rintro rfl
      exact hOrderly _ hWrite hReads
    exact Function.update_of_ne hNe _ _

theorem Chunk.mem_moves {c : Chunk} {addr pos : Nat} :
    (addr, pos) ∈ c.moves ↔ ∃ k < c.size, addr = c.va + k ∧ pos = c.imgOff + k := by
  simp [Chunk.moves, eq_comm]

/-- The chunks of an entry take each of its bytes from `off` on to its place. -/
theorem mem_entryChunks_moves {staging : Nat} (hStaging : 0 < staging) {va size imgBase addr pos : Nat}
    (fuel off : Nat) (hFuel : size ≤ fuel + off) :
    (addr, pos) ∈ (entryChunks staging va size imgBase fuel off).flatMap Chunk.moves ↔
      ∃ k, off ≤ k ∧ k < size ∧ addr = va + k ∧ pos = imgBase + k := by
  induction fuel generalizing off with
  | zero =>
      refine ⟨fun h => absurd h List.not_mem_nil, ?_⟩
      rintro ⟨k, hLow, hHigh, _⟩
      omega
  | succ fuel ih =>
      rw [entryChunks]
      split
      · next hOff =>
          dsimp only
          generalize hChunk : (if staging < size - off then staging else size - off) = chunk
          have hPos : 0 < chunk ∧ off + chunk ≤ size := by
            split at hChunk <;> omega
          rw [List.flatMap_cons, List.mem_append, ih (off + chunk) (by omega), Chunk.mem_moves]
          dsimp only
          constructor
          · rintro (⟨k, hk, rfl, rfl⟩ | ⟨k, hLow, hRest⟩)
            · exact ⟨off + k, by omega, by omega, by omega, by omega⟩
            · exact ⟨k, by omega, hRest⟩
          · rintro ⟨k, hLow, hHigh, rfl, rfl⟩
            by_cases hHere : k < off + chunk
            · exact .inl ⟨k - off, by omega, by omega, by omega⟩
            · exact .inr ⟨k, by omega, hHigh, rfl, rfl⟩
      · refine ⟨fun h => absurd h List.not_mem_nil, ?_⟩
        rintro ⟨k, hLow, hHigh, _⟩
        omega

/-- The chunks that `build_chunks` makes of one entry: those of the mapping, or none in
Phase 4 if it is not marked. -/
theorem Ready.entry_chunks (h : Ready images s) (hm : m ∈ s.mapped) {snap : SnapEnt}
    (hRecord : m.outcome.record = some snap.idx) (hRegion : snap.toRegion = m.toRegion) :
    ∃ off dirty, m.outcome.slot = some off ∧ (Marked s.table m ↔ dirty = true) ∧ ∀ dirtyOnly,
      buildChunks s.table.allocs [snap] images.staging.bytes dirtyOnly =
        if (dirtyOnly && !dirty) = true then []
        else entryChunks images.staging.bytes m.va m.size off m.size 0 := by
  obtain ⟨i, off, e, hIndex, hOff, he, hAlive, _, hSlot⟩ := h.record hm
  cases hRecord.symm.trans hIndex
  refine ⟨off, e.flags.dirtyThisRound, hOff, ⟨?_, fun hDirty => ⟨_, e, hRecord, he, hDirty⟩⟩, ?_⟩
  · rintro ⟨i', e', hRecord', he', hDirty⟩
    cases hRecord.symm.trans hRecord'
    cases he.symm.trans he'
    exact hDirty
  · intro dirtyOnly
    simp only [buildChunks, List.flatMap_cons, List.flatMap_nil, List.append_nil, he, hAlive, hSlot,
      Bool.not_true, Bool.or_false, hRegion]

/-- The bytes of these chunks are those of the mapping, if it is marked or all are taken. -/
theorem Ready.mem_moves (h : Ready images s) (hm : m ∈ s.mapped) {snap : SnapEnt}
    (hRecord : m.outcome.record = some snap.idx) (hRegion : snap.toRegion = m.toRegion)
    (dirtyOnly : Bool) {addr pos : Nat} :
    (addr, pos) ∈ (buildChunks s.table.allocs [snap] images.staging.bytes dirtyOnly).flatMap
        Chunk.moves ↔ (dirtyOnly = true → Marked s.table m) ∧ Places m addr pos := by
  obtain ⟨off, dirty, hOff, hMarked, hChunks⟩ := h.entry_chunks hm hRecord hRegion
  have hStaging : 0 < images.staging.bytes :=
    Nat.lt_of_lt_of_le (Nat.two_pow_pos 20) images.staging.large
  have hPlaces : (addr, pos) ∈ (entryChunks images.staging.bytes m.va m.size off m.size 0).flatMap
      Chunk.moves ↔ Places m addr pos := by
    rw [mem_entryChunks_moves hStaging m.size 0 (Nat.le_add_right _ _)]
    simp [Places, hOff]
  rw [hChunks, hMarked, ← hPlaces]
  cases dirtyOnly <;> cases dirty <;> simp

/-- A mapping that is marked has a chunk. -/
theorem Ready.dirtyChunks_eq_nil_iff (h : Ready images s) (hm : m ∈ s.mapped) {snap : SnapEnt}
    (hRecord : m.outcome.record = some snap.idx) (hRegion : snap.toRegion = m.toRegion) :
    s.dirtyChunks images snap = [] ↔ ¬Marked s.table m := by
  obtain ⟨off, dirty, _, hMarked, hChunks⟩ := h.entry_chunks hm hRecord hRegion
  rw [Session.dirtyChunks, hChunks, hMarked]
  cases dirty with
  | false => simp
  | true =>
      obtain ⟨size, hSize⟩ := Nat.exists_eq_add_one_of_ne_zero (Nat.ne_of_gt (h.inv.owned.pos m hm).2)
      simp [hSize, entryChunks]

theorem buildChunks_moves (allocs : List (Alloc PhosFlags)) (snaps : List SnapEnt) (staging : Nat)
    (dirtyOnly : Bool) : (buildChunks allocs snaps staging dirtyOnly).flatMap Chunk.moves =
      snaps.flatMap fun snap => (buildChunks allocs [snap] staging dirtyOnly).flatMap Chunk.moves := by
  simp [buildChunks, List.flatMap_assoc]

/-- The snapshot has an entry for each mapping whose record was reached, and no other. -/
structure Listed (snaps : List SnapEnt) (mapped : List Mapping) (reached : Nat → Prop) : Prop where
  entry : ∀ m ∈ mapped, ∀ i, m.outcome.record = some i → reached i →
    ∃ snap ∈ snaps, snap.idx = i ∧ snap.toRegion = m.toRegion
  mapping : ∀ snap ∈ snaps, ∃ m ∈ mapped,
    m.outcome.record = some snap.idx ∧ snap.toRegion = m.toRegion
  distinct : snaps.Pairwise fun a b => a.idx ≠ b.idx
  below : ∀ snap ∈ snaps, reached snap.idx

/-- The base has what the mapping held at the stall. -/
def Session.InBase (s : Session) (m : Mapping) : Prop :=
  ∀ addr pos, Places m addr pos → s.base pos = s.stalled addr

/-- In Phase 2 a byte has still to be copied, or the base has it, or its mapping is noted. -/
structure Copying (s : Session) (todo : List (Nat × Nat)) : Prop where
  listed : Listed s.snaps s.mapped fun _ => True
  accounted : s.Accounted
  places : ∀ addr pos, (addr, pos) ∈ todo → ∃ m ∈ s.mapped, Places m addr pos
  copied : ∀ m ∈ s.mapped, ∀ addr pos, Places m addr pos →
    (addr, pos) ∈ todo ∨ s.base pos = s.memory addr ∨ s.Noted m

/-- While the passes of Phase 4 run, what they will read stays as it was at the stall. -/
structure Stalled (s : Session) : Prop where
  live : ∀ m ∈ s.live, m ∈ s.mapped
  listed : Listed s.snaps s.live fun _ => True
  memory : ∀ m ∈ s.live, ∀ addr, m.Covers addr → s.memory addr = s.stalled addr

/-- The entry of the record is among the first `k`. -/
def Session.Passed (s : Session) (k i : Nat) : Prop := ∃ snap ∈ s.snaps.take k, snap.idx = i

/-- A mapping is in the base or noted; when its entry was counted, it is in the base or
marked. -/
structure Counting (s : Session) (k n : Nat) : Prop extends Stalled s where
  chosen : s.chosen = []
  copied : ∀ m ∈ s.live, s.InBase m ∨ s.Noted m
  passed : ∀ m ∈ s.live, ∀ i, m.outcome.record = some i → s.Passed k i →
    s.InBase m ∨ Marked s.table m ∧ 0 < n

/-- A mapping whose entry was passed is chosen and in the chunks, or in the base. -/
structure Filling (s : Session) (k : Nat) (chunks : List Chunk) : Prop extends Stalled s where
  copied : ∀ m ∈ s.live, s.InBase m ∨ Marked s.table m
  chosen : ∀ i ∈ s.chosen, s.Passed k i
  places : ∀ addr pos, (addr, pos) ∈ chunks.flatMap Chunk.moves → ∃ m ∈ s.live, Places m addr pos
  passed : ∀ m ∈ s.live, ∀ i, m.outcome.record = some i → s.Passed k i →
    i ∈ s.chosen ∧ (∀ addr pos, Places m addr pos → (addr, pos) ∈ chunks.flatMap Chunk.moves) ∨
      i ∉ s.chosen ∧ s.InBase m

/-- A mapping that is chosen is in the delta but for what is still to be copied. -/
structure Recopying (s : Session) (todo : List (Nat × Nat)) : Prop where
  live : ∀ m ∈ s.live, m ∈ s.mapped
  memory : ∀ addr pos, (addr, pos) ∈ todo → s.memory addr = s.stalled addr
  places : ∀ addr pos, (addr, pos) ∈ todo → ∃ m ∈ s.live, Places m addr pos
  copied : ∀ m ∈ s.live, ∀ i, m.outcome.record = some i →
    i ∈ s.chosen ∧ (∀ addr pos, Places m addr pos →
        (addr, pos) ∈ todo ∨ s.delta pos = s.stalled addr) ∨
      i ∉ s.chosen ∧ s.InBase m

/-- What a round has reached. -/
def Held (s : Session) : Prop :=
  match s.round with
  | .idle => True
  | .snapshot k => Listed s.snaps s.mapped (· < k)
  | .precopy => Listed s.snaps s.mapped fun _ => True
  | .copying todo => Copying s todo
  | .copied => Copying s []
  | .count k n => Counting s k n
  | .fill k _ chunks => Filling s k chunks
  | .recopying todo => Recopying s todo

theorem Runs.inBase (h : Runs s s') (hBase : s.InBase m) : s'.InBase m := by
  rw [Session.InBase, h.base, h.stalled]
  exact hBase

theorem Runs.passed (h : Runs s s') (k i : Nat) : s'.Passed k i ↔ s.Passed k i := by
  rw [Session.Passed, Session.Passed, h.snaps]

/-- Each mapping that was live at the stall has its entry. -/
theorem Stalled.entry (h : Stalled s) (hReady : Ready images s) (hm : m ∈ s.live) :
    ∃ snap ∈ s.snaps, m.outcome.record = some snap.idx ∧ snap.toRegion = m.toRegion := by
  obtain ⟨i, _, _, hRecord, _⟩ := hReady.record (h.live m hm)
  obtain ⟨snap, hSnap, rfl, hRegion⟩ := h.listed.entry m hm i hRecord trivial
  exact ⟨snap, hSnap, hRecord, hRegion⟩

/-- Phase 4 reads no byte that changes beside it. -/
theorem Stalled.runs (h : Stalled s) (hReady : Ready images s) (hRuns : Runs s s')
    (hReads : ∀ snap ∈ s.snaps, ∀ addr, snap.Covers addr → s.StillReads addr) : Stalled s' where
  live := by
    rw [hRuns.live]
    exact fun m hm => hRuns.mapped m (h.live m hm)
  listed := by
    rw [hRuns.snaps, hRuns.live]
    exact h.listed
  memory := by
    rw [hRuns.live, hRuns.stalled]
    intro m hm addr hCovers
    obtain ⟨snap, hSnap, _, hRegion⟩ := h.entry hReady hm
    have hRead : s.StillReads addr := by
      apply hReads snap hSnap addr
      rw [hRegion]
      exact hCovers
    rw [hRuns.still addr hRead, h.memory m hm addr hCovers]

theorem Copying.runs {todo : List (Nat × Nat)} (h : Copying s todo) (hRuns : Runs s s')
    (hMapped : s'.mapped = s.mapped) : Copying s' todo where
  listed := by
    rw [hRuns.snaps, hMapped]
    exact h.listed
  accounted := hRuns.accounted h.accounted
  places := hMapped ▸ h.places
  copied := by
    rw [hMapped, hRuns.base]
    intro m hm addr pos hPlaces
    rcases h.copied m hm addr pos hPlaces with hTodo | hBase | hNoted
    · exact .inl hTodo
    · rcases hRuns.memory h.accounted m hm addr hPlaces.covers with hSame | hNoted
      · exact .inr (.inl (hBase.trans hSame.symm))
      · exact .inr (.inr hNoted)
    · exact .inr (.inr (hRuns.noted m hm hNoted))

theorem Counting.runs {k n : Nat} (h : Counting s k n) (hReady : Ready images s) (hRuns : Runs s s')
    (hRound : s.round = .count k n) : Counting s' k n where
  toStalled := by
    refine h.toStalled.runs hReady hRuns fun snap hSnap addr hCovers => ?_
    rw [Session.StillReads, hRound]
    exact ⟨snap, hSnap, hCovers⟩
  chosen := hRuns.chosen.trans h.chosen
  copied := by
    rw [hRuns.live]
    exact fun m hm => (h.copied m hm).imp hRuns.inBase (hRuns.noted m (h.live m hm))
  passed := by
    rw [hRuns.live]
    intro m hm i hRecord hPassed
    apply (h.passed m hm i hRecord ((hRuns.passed k i).mp hPassed)).imp hRuns.inBase
    exact fun hMarked => ⟨hRuns.marked m (h.live m hm) hMarked.1, hMarked.2⟩

theorem Filling.runs {k n : Nat} {chunks : List Chunk} (h : Filling s k chunks)
    (hReady : Ready images s) (hRuns : Runs s s') (hRound : s.round = .fill k n chunks) :
    Filling s' k chunks where
  toStalled := by
    refine h.toStalled.runs hReady hRuns fun snap hSnap addr hCovers => ?_
    rw [Session.StillReads, hRound]
    exact ⟨snap, hSnap, hCovers⟩
  copied := by
    rw [hRuns.live]
    exact fun m hm => (h.copied m hm).imp hRuns.inBase (hRuns.marked m (h.live m hm))
  chosen := by
    rw [hRuns.chosen]
    exact fun i hi => (hRuns.passed k i).mpr (h.chosen i hi)
  places := by
    rw [hRuns.live]
    exact h.places
  passed := by
    rw [hRuns.live, hRuns.chosen]
    intro m hm i hRecord hPassed
    apply (h.passed m hm i hRecord ((hRuns.passed k i).mp hPassed)).imp_right
    exact fun hBase => ⟨hBase.1, hRuns.inBase hBase.2⟩

theorem Recopying.runs {todo : List (Nat × Nat)} (h : Recopying s todo) (hRuns : Runs s s')
    (hRound : s.round = .recopying todo) : Recopying s' todo where
  live := by
    rw [hRuns.live]
    exact fun m hm => hRuns.mapped m (h.live m hm)
  memory := by
    rw [hRuns.stalled]
    intro addr pos hTodo
    have hRead : s.StillReads addr := by
      rw [Session.StillReads, hRound]
      exact ⟨pos, hTodo⟩
    rw [hRuns.still addr hRead, h.memory addr pos hTodo]
  places := by
    rw [hRuns.live]
    exact h.places
  copied := by
    rw [hRuns.live, hRuns.chosen, hRuns.delta, hRuns.stalled]
    intro m hm i hRecord
    apply (h.copied m hm i hRecord).imp_right
    exact fun hBase => ⟨hBase.1, hRuns.inBase hBase.2⟩

/-- What a round has reached is not lost by what happens beside it. -/
theorem Held.runs (h : Held s) (hReady : Ready images s) (hRuns : Runs s s') : Held s' := by
  have hSame := hRuns.same
  unfold Held at h ⊢
  rw [hRuns.round]
  cases hRound : s.round with
  | idle => trivial
  | snapshot k | precopy =>
      simp only [hRound, reduceCtorEq, exists_false, or_false] at h hSame ⊢
      rw [hRuns.snaps, hSame]
      exact h
  | copying todo | copied =>
      simp only [hRound, reduceCtorEq, exists_false, or_false] at h hSame ⊢
      exact h.runs hRuns hSame
  | count k n =>
      simp only [hRound] at h
      exact h.runs hReady hRuns hRound
  | fill k n chunks =>
      simp only [hRound] at h
      exact h.runs hReady hRuns hRound
  | recopying todo =>
      simp only [hRound] at h
      exact h.runs hRuns hRound

/-- The bytes that Phase 2 copies are those of the mappings. -/
theorem Listed.mem_moves {mapped : List Mapping} (h : Listed s.snaps mapped fun _ => True)
    (hReady : Ready images s) (hMapped : ∀ m ∈ mapped, m ∈ s.mapped) {addr pos : Nat} :
    (addr, pos) ∈ (buildChunks s.table.allocs s.snaps images.staging.bytes false).flatMap Chunk.moves ↔
      ∃ m ∈ mapped, Places m addr pos := by
  rw [buildChunks_moves, List.mem_flatMap]
  constructor
  · rintro ⟨snap, hSnap, hMove⟩
    obtain ⟨m, hm, hRecord, hRegion⟩ := h.mapping snap hSnap
    exact ⟨m, hm, ((hReady.mem_moves (hMapped m hm) hRecord hRegion false).mp hMove).2⟩
  · rintro ⟨m, hm, hPlaces⟩
    obtain ⟨i, _, _, hRecord, _⟩ := hReady.record (hMapped m hm)
    obtain ⟨snap, hSnap, rfl, hRegion⟩ := h.entry m hm i hRecord trivial
    refine ⟨snap, hSnap, (hReady.mem_moves (hMapped m hm) hRecord hRegion false).mpr ⟨?_, hPlaces⟩⟩
    exact fun hFalse => absurd hFalse Bool.false_ne_true

theorem held_idle (hRound : s.round = .idle) (hNext : s.advance images = some s') : Held s' := by
  simp only [Session.advance, hRound, Option.some.injEq] at hNext
  subst hNext
  exact ⟨fun _ _ i _ hLt => absurd hLt (Nat.not_lt_zero i), fun _ h => absurd h List.not_mem_nil, .nil,
    fun _ h => absurd h List.not_mem_nil⟩

/-- The next record is taken. -/
theorem Listed.append {snaps : List SnapEnt} {mapped : List Mapping} {k : Nat}
    (h : Listed snaps mapped (· < k)) {r : Region}
    (hMapping : ∃ m ∈ mapped, m.outcome.record = some k ∧ r = m.toRegion)
    (hEntry : ∀ m ∈ mapped, m.outcome.record = some k → r = m.toRegion) :
    Listed (snaps ++ [⟨r, k⟩]) mapped (· < k + 1) where
  entry := by
    intro m hm i hRecord hReached
    rcases Nat.lt_succ_iff_lt_or_eq.mp hReached with hLt | rfl
    · obtain ⟨snap, hSnap, hSame⟩ := h.entry m hm i hRecord hLt
      exact ⟨snap, List.mem_append_left _ hSnap, hSame⟩
    · exact ⟨_, List.mem_append_right _ List.mem_cons_self, rfl, hEntry m hm hRecord⟩
  mapping := by
    intro snap hSnap
    rcases List.mem_append.mp hSnap with hSnap | hSnap
    · exact h.mapping snap hSnap
    · cases List.mem_singleton.mp hSnap
      exact hMapping
  distinct := by
    refine List.pairwise_append.mpr ⟨h.distinct, List.pairwise_singleton _ _, ?_⟩
    intro snap hSnap new hNew
    cases List.mem_singleton.mp hNew
    exact Nat.ne_of_lt (h.below snap hSnap)
  below := by
    intro snap hSnap
    rcases List.mem_append.mp hSnap with hSnap | hSnap
    · exact Nat.lt_succ_of_lt (h.below snap hSnap)
    · cases List.mem_singleton.mp hSnap
      exact Nat.lt_succ_self k

/-- The next record is of no mapping. -/
theorem Listed.skip {snaps : List SnapEnt} {mapped : List Mapping} {k : Nat}
    (h : Listed snaps mapped (· < k)) (hNone : ∀ m ∈ mapped, m.outcome.record ≠ some k) :
    Listed snaps mapped (· < k + 1) where
  entry := by
    intro m hm i hRecord hReached
    refine h.entry m hm i hRecord (Nat.lt_of_le_of_ne (Nat.le_of_lt_succ hReached) ?_)
    rintro rfl
    exact hNone m hm hRecord
  mapping := h.mapping
  distinct := h.distinct
  below := fun snap hSnap => Nat.lt_succ_of_lt (h.below snap hSnap)

/-- The entry of a record that is live is taken; no mapping has one that is not. -/
theorem held_snapshot (hReady : Ready images s) (hHeld : Held s) {k : Nat}
    (hRound : s.round = .snapshot k) (hNext : s.advance images = some s') : Held s' := by
  simp only [Held, hRound] at hHeld
  simp only [Session.advance, hRound] at hNext
  have hLive (m : Mapping) (hm : m ∈ s.mapped) (i : Nat) (hRecord : m.outcome.record = some i) :
      ∃ e, s.table.allocs[i]? = some e ∧ e.alive = true ∧ e.toRegion = m.toRegion := by
    obtain ⟨i', _, e, hRecord', _, hFound, hAlive, hRegion, _⟩ := hReady.record hm
    cases hRecord.symm.trans hRecord'
    exact ⟨e, hFound, hAlive, hRegion⟩
  cases he : s.table.allocs[k]? with
  | none =>
      simp only [he, Option.some.injEq] at hNext
      subst hNext
      refine ⟨fun m hm i hRecord _ => hHeld.entry m hm i hRecord ?_, hHeld.mapping, hHeld.distinct,
        fun _ _ => trivial⟩
      obtain ⟨e, hFound, _⟩ := hLive m hm i hRecord
      exact Nat.lt_of_lt_of_le (List.getElem?_eq_some_iff.mp hFound).1 (List.getElem?_eq_none_iff.mp he)
  | some e =>
      simp only [he, Option.some.injEq] at hNext
      subst hNext
      rw [Session.snapshotEntry]
      split
      · next hAlive =>
          refine hHeld.append (hReady.inv.owned.mapping k e he hAlive) fun m hm hRecord => ?_
          obtain ⟨e', hFound, _, hRegion⟩ := hLive m hm k hRecord
          cases he.symm.trans hFound
          exact hRegion
      · next hRetired =>
          refine hHeld.skip fun m hm hRecord => ?_
          obtain ⟨e', hFound, hAlive, _⟩ := hLive m hm k hRecord
          cases he.symm.trans hFound
          exact hRetired hAlive

/-- When Phase 2 begins, all bytes are to be copied and none was written since. -/
theorem held_precopy (hReady : Ready images s) (hHeld : Held s) (hRound : s.round = .precopy)
    (hOrderly : s.Orderly images .advance) (hNext : s.advance images = some s') : Held s' := by
  simp only [Held, hRound] at hHeld
  simp only [Session.Orderly, hRound] at hOrderly
  simp only [Session.advance, hRound, Option.some.injEq] at hNext
  subst hNext
  refine ⟨hHeld, ?_, fun addr pos hTodo => (hHeld.mem_moves hReady fun _ hm => hm).mp hTodo,
    fun m hm addr pos hPlaces => .inl ((hHeld.mem_moves hReady fun _ hm => hm).mpr ⟨m, hm, hPlaces⟩)⟩
  intro o w hw m hm hCovers
  by_cases hPending : ∃ a ∈ (s.ops o).pending, m.Covers a
  · exact .inr hPending
  · refine .inl (hOrderly m hm ⟨o, ⟨w, hw, hCovers⟩, ?_⟩)
    exact fun a ha haCovers => hPending ⟨a, ha, haCovers⟩

theorem held_copying (hHeld : Held s) {todo : List (Nat × Nat)} (hRound : s.round = .copying todo)
    (hNext : s.advance images = some s') : Held s' := by
  simp only [Held, hRound] at hHeld
  simp only [Session.advance, hRound, Option.ite_none_right_eq_some, Option.some.injEq] at hNext
  obtain ⟨rfl, rfl⟩ := hNext
  exact ⟨hHeld.listed, hHeld.accounted, hHeld.places, hHeld.copied⟩

/-- At the stall a mapping of which a byte differs in the base is noted. -/
theorem held_copied (hHeld : Held s) (hRound : s.round = .copied)
    (hNext : s.advance images = some s') : Held s' := by
  simp only [Held, hRound] at hHeld
  simp only [Session.advance, hRound, Option.some.injEq] at hNext
  subst hNext
  refine ⟨⟨fun _ hm => hm, hHeld.listed, fun _ _ _ _ => rfl⟩, rfl, ?_, ?_⟩
  · intro m hm
    by_cases hNoted : s.Noted m
    · exact .inr hNoted
    · left
      intro addr pos hPlaces
      rcases hHeld.copied m hm addr pos hPlaces with hTodo | hBase | hNow
      · cases hTodo
      · exact hBase
      · exact (hNoted hNow).elim
  · rintro m _ i _ ⟨snap, hSnap, _⟩
    exact absurd hSnap List.not_mem_nil

theorem not_passed_zero (s : Session) (i : Nat) : ¬s.Passed 0 i := by
  rintro ⟨snap, hSnap, _⟩
  exact absurd hSnap List.not_mem_nil

theorem passed_succ_iff {k i : Nat} {snap : SnapEnt} (hSnap : s.snaps[k]? = some snap) :
    s.Passed (k + 1) i ↔ s.Passed k i ∨ snap.idx = i := by
  simp [Session.Passed, List.take_add_one, hSnap, or_and_right, exists_or]

/-- All entries are passed. -/
theorem Stalled.passed_end (h : Stalled s) (hReady : Ready images s) {k i : Nat}
    (hEnd : s.snaps[k]? = none) (hm : m ∈ s.live) (hRecord : m.outcome.record = some i) :
    s.Passed k i := by
  obtain ⟨snap, hSnap, hEntry, _⟩ := h.entry hReady hm
  cases hEntry.symm.trans hRecord
  refine ⟨snap, ?_, rfl⟩
  rwa [List.take_of_length_le (List.getElem?_eq_none_iff.mp hEnd)]

/-- An entry has the range of the mapping whose record it is of. -/
theorem Stalled.region (h : Stalled s) (hReady : Ready images s) (hm : m ∈ s.live) {snap : SnapEnt}
    (hSnap : snap ∈ s.snaps) (hRecord : m.outcome.record = some snap.idx) :
    snap.toRegion = m.toRegion := by
  obtain ⟨n, hn, hnRecord, hnRegion⟩ := h.listed.mapping snap hSnap
  obtain ⟨i, _, e, hi, _, he, _, hRegion, _⟩ := hReady.record (h.live m hm)
  obtain ⟨j, _, f, hj, _, hf, _, hRegion', _⟩ := hReady.record (h.live n hn)
  cases hRecord.symm.trans hi
  cases hnRecord.symm.trans hj
  cases he.symm.trans hf
  rw [hnRegion, ← hRegion', hRegion]

/-- The entry at hand was not passed before. -/
theorem Stalled.not_passed (h : Stalled s) {k : Nat} {snap : SnapEnt} (hSnap : s.snaps[k]? = some snap) :
    ¬s.Passed k snap.idx := by
  rintro ⟨earlier, hEarlier, hSame⟩
  obtain ⟨hk, rfl⟩ := List.getElem?_eq_some_iff.mp hSnap
  obtain ⟨j, hj, rfl⟩ := List.mem_take_iff_getElem.mp hEarlier
  exact List.pairwise_iff_getElem.mp h.listed.distinct j k (by omega) hk (by omega) hSame

/-- A mapping that is not marked when its entry is counted is in the base. -/
theorem held_count (hReady : Ready images s) (hHeld : Held s) {k n : Nat}
    (hRound : s.round = .count k n) (hOrderly : s.Orderly images .advance)
    (hNext : s.advance images = some s') : Held s' := by
  simp only [Held, hRound] at hHeld
  simp only [Session.Orderly, hRound] at hOrderly
  simp only [Session.advance, hRound] at hNext
  have hStalled := hHeld.toStalled
  cases hSnap : s.snaps[k]? with
  | none =>
      simp only [hSnap, Option.some.injEq] at hNext
      subst hNext
      have hPassed (m : Mapping) (hm : m ∈ s.live) : s.InBase m ∨ Marked s.table m ∧ 0 < n := by
        obtain ⟨i, _, _, hRecord, _⟩ := hReady.record (hStalled.live m hm)
        exact hHeld.passed m hm i hRecord (hStalled.passed_end hReady hSnap hm hRecord)
      by_cases hNone : n = 0
      · rw [if_pos hNone]
        refine ⟨hStalled.live, fun _ _ h => absurd h List.not_mem_nil,
          fun _ _ h => absurd h List.not_mem_nil, ?_⟩
        intro m hm i _
        refine .inr ⟨fun hChosen => ?_, (hPassed m hm).resolve_right fun hMarked => by omega⟩
        dsimp only at hChosen
        rw [hHeld.chosen] at hChosen
        cases hChosen
      · rw [if_neg hNone]
        refine ⟨⟨hStalled.live, hStalled.listed, hStalled.memory⟩,
          fun m hm => (hPassed m hm).imp_right And.left, ?_, fun _ _ h => absurd h List.not_mem_nil,
          fun _ _ i _ h => absurd h (not_passed_zero _ i)⟩
        intro i hChosen
        dsimp only at hChosen
        rw [hHeld.chosen] at hChosen
        cases hChosen
  | some snap =>
      simp only [hSnap, Option.some.injEq] at hNext
      subst hNext
      refine ⟨⟨hStalled.live, hStalled.listed, hStalled.memory⟩, hHeld.chosen, hHeld.copied, ?_⟩
      intro m hm i hRecord hPassed
      rcases (passed_succ_iff (s := s) hSnap).mp hPassed with hBefore | rfl
      · refine (hHeld.passed m hm i hRecord hBefore).imp_right fun hMarked => ⟨hMarked.1, ?_⟩
        exact Nat.lt_of_lt_of_le hMarked.2 (Nat.le_add_right _ _)
      · rcases hHeld.copied m hm with hBase | hMarked | hRacing
        · exact .inl hBase
        · have hRegion := hStalled.region hReady hm (List.mem_of_getElem? hSnap) hRecord
          have hSome := (hReady.dirtyChunks_eq_nil_iff (hStalled.live m hm) hRecord hRegion).not.mpr
            (not_not_intro hMarked)
          have hLength := List.length_pos_iff.mpr hSome
          exact .inr ⟨hMarked, by omega⟩
        · exact (hOrderly snap hSnap m hm hRecord hRacing).elim

/-- A mapping is chosen with all its bytes when its entry is filled in, or is in the base. -/
theorem held_fill (hReady : Ready images s) (hHeld : Held s) {k n : Nat} {chunks : List Chunk}
    (hRound : s.round = .fill k n chunks) (hNext : s.advance images = some s') : Held s' := by
  simp only [Held, hRound] at hHeld
  simp only [Session.advance, hRound] at hNext
  have hStalled := hHeld.toStalled
  cases hSnap : s.snaps[k]? with
  | none =>
      simp only [hSnap, Option.some.injEq] at hNext
      subst hNext
      refine ⟨hStalled.live, ?_, hHeld.places, ?_⟩
      · intro addr pos hTodo
        obtain ⟨m, hm, hPlaces⟩ := hHeld.places addr pos hTodo
        exact hStalled.memory m hm addr hPlaces.covers
      · intro m hm i hRecord
        apply (hHeld.passed m hm i hRecord (hStalled.passed_end hReady hSnap hm hRecord)).imp_left
        exact fun hChosen => ⟨hChosen.1, fun addr pos hPlaces => .inl (hChosen.2 addr pos hPlaces)⟩
  | some snap =>
      simp only [hSnap, Option.ite_none_right_eq_some, Option.some.injEq] at hNext
      obtain ⟨_, rfl⟩ := hNext
      have hNew := hStalled.not_passed hSnap
      have hMem := List.mem_of_getElem? hSnap
      have hChosen {i : Nat} : i ∈ (if s.dirtyChunks images snap = [] then s.chosen
          else s.chosen ++ [snap.idx]) ↔ i ∈ s.chosen ∨ s.dirtyChunks images snap ≠ [] ∧ i = snap.idx := by
        split <;> simp [*]
      refine ⟨⟨hStalled.live, hStalled.listed, hStalled.memory⟩, hHeld.copied, ?_, ?_, ?_⟩
      · intro i hi
        apply (passed_succ_iff (s := s) hSnap).mpr
        exact (hChosen.mp hi).imp (hHeld.chosen i) fun hHere => hHere.2.symm
      · intro addr pos hMove
        rw [List.flatMap_append] at hMove
        rcases List.mem_append.mp hMove with hMove | hMove
        · exact hHeld.places addr pos hMove
        · obtain ⟨m, hm, hRecord, hRegion⟩ := hStalled.listed.mapping snap hMem
          exact ⟨m, hm, ((hReady.mem_moves (hStalled.live m hm) hRecord hRegion true).mp hMove).2⟩
      · intro m hm i hRecord hPassed
        rw [hChosen, List.flatMap_append]
        rcases (passed_succ_iff (s := s) hSnap).mp hPassed with hBefore | rfl
        · refine (hHeld.passed m hm i hRecord hBefore).imp ?_ ?_
          · exact fun hAll => ⟨.inl hAll.1, fun addr pos hPlaces =>
              List.mem_append_left _ (hAll.2 addr pos hPlaces)⟩
          · refine fun hNot => ⟨?_, hNot.2⟩
            rintro (hOld | ⟨_, rfl⟩)
            · exact hNot.1 hOld
            · exact hNew hBefore
        · have hLive := hStalled.live m hm
          have hRegion := hStalled.region hReady hm hMem hRecord
          have hNil := hReady.dirtyChunks_eq_nil_iff hLive hRecord hRegion
          by_cases hMarked : Marked s.table m
          · refine .inl ⟨.inr ⟨fun hEmpty => hNil.mp hEmpty hMarked, rfl⟩, fun addr pos hPlaces => ?_⟩
            apply List.mem_append_right _
            exact (hReady.mem_moves hLive hRecord hRegion true).mpr ⟨fun _ => hMarked, hPlaces⟩
          · refine .inr ⟨?_, (hHeld.copied m hm).resolve_right hMarked⟩
            rintro (hOld | ⟨hSome, _⟩)
            · exact hNew (hHeld.chosen _ hOld)
            · exact hSome (hNil.mpr hMarked)

theorem ready_advance (h : Ready images s) (hNext : s.advance images = some s') :
    Ready images s' := by
  cases hRound : s.round with
  | idle | precopy | copied =>
      simp only [Session.advance, hRound, Option.some.injEq] at hNext
      subst hNext
      exact h.of_same rfl
  | snapshot k =>
      simp only [Session.advance, hRound] at hNext
      cases he : s.table.allocs[k]? with
      | none =>
          simp only [he, Option.some.injEq] at hNext
          subst hNext
          exact h.of_same rfl
      | some e =>
          simp only [he, Option.some.injEq, Session.snapshotEntry] at hNext
          subst hNext
          split
          · exact h.flag rfl rfl
          · exact h.of_same rfl
  | copying todo | recopying todo =>
      simp only [Session.advance, hRound, Option.ite_none_right_eq_some, Option.some.injEq] at hNext
      obtain ⟨_, rfl⟩ := hNext
      exact h.of_same rfl
  | count k n =>
      simp only [Session.advance, hRound] at hNext
      split at hNext <;> cases hNext <;> exact h.of_same rfl
  | fill k n chunks =>
      simp only [Session.advance, hRound] at hNext
      split at hNext
      · cases hNext
        exact h.of_same rfl
      · obtain ⟨_, hNext⟩ := Option.ite_none_right_eq_some.mp hNext
        cases hNext
        exact h.of_same rfl

theorem held_advance (hReady : Ready images s) (hHeld : Held s)
    (hOrderly : s.Orderly images .advance) (hNext : s.advance images = some s') : Held s' := by
  cases hRound : s.round with
  | idle => exact held_idle hRound hNext
  | snapshot k => exact held_snapshot hReady hHeld hRound hNext
  | precopy => exact held_precopy hReady hHeld hRound hOrderly hNext
  | copying todo => exact held_copying hHeld hRound hNext
  | copied => exact held_copied hHeld hRound hNext
  | count k n => exact held_count hReady hHeld hRound hOrderly hNext
  | fill k n chunks => exact held_fill hReady hHeld hRound hNext
  | recopying todo =>
      simp only [Session.advance, hRound, Option.ite_none_right_eq_some, Option.some.injEq] at hNext
      obtain ⟨_, rfl⟩ := hNext
      trivial

/-- What is still to be copied when one of it was copied. -/
theorem mem_eraseIdx_or {todo : List (Nat × Nat)} {j addr pos : Nat} (hj : todo[j]? = some (addr, pos))
    {a o : Nat} (h : (a, o) ∈ todo) : (a, o) ∈ todo.eraseIdx j ∨ a = addr ∧ o = pos := by
  obtain ⟨i, hi⟩ := List.mem_iff_getElem?.mp h
  by_cases hSame : i = j
  · cases hSame
    cases hi.symm.trans hj
    exact .inr ⟨rfl, rfl⟩
  · exact .inl (List.mem_eraseIdx_iff_getElem?.mpr ⟨i, hSame, hi⟩)

/-- A copy in Phase 2 writes the byte of one mapping only. -/
theorem held_copy_base (hReady : Ready images s) (hHeld : Held s) {todo : List (Nat × Nat)}
    (hRound : s.round = .copying todo) {j : Nat} (hNext : s.copy images j = some s') :
    Ready images s' ∧ Held s' := by
  simp only [Held, hRound] at hHeld
  simp only [Session.copy, hRound, Option.map_eq_some_iff, Prod.exists] at hNext
  obtain ⟨addr, pos, hj, rfl⟩ := hNext
  refine ⟨hReady.of_same rfl, hHeld.listed, hHeld.accounted,
    fun a o h => hHeld.places a o (List.mem_of_mem_eraseIdx h), ?_⟩
  obtain ⟨n, hn, hnPlaces⟩ := hHeld.places addr pos (List.mem_of_getElem? hj)
  intro m hm a o hPlaces
  dsimp only
  by_cases hPos : o = pos
  · cases hPos
    cases hReady.places_inj hm hn hPlaces hnPlaces
    exact .inr (.inl (Function.update_self _ _ _))
  · rw [Function.update_of_ne hPos]
    rcases hHeld.copied m hm a o hPlaces with hTodo | hRest
    · rcases mem_eraseIdx_or hj hTodo with hLeft | ⟨_, hSame⟩
      · exact .inl hLeft
      · exact (hPos hSame).elim
    · exact .inr hRest

/-- A copy in Phase 4 takes what the byte was at the stall. -/
theorem held_copy_delta (hReady : Ready images s) (hHeld : Held s) {todo : List (Nat × Nat)}
    (hRound : s.round = .recopying todo) {j : Nat} (hOrderly : s.Orderly images (.copy j))
    (hNext : s.copy images j = some s') : Ready images s' ∧ Held s' := by
  simp only [Held, hRound] at hHeld
  simp only [Session.Orderly, hRound] at hOrderly
  obtain ⟨total, hTotal⟩ := Option.ne_none_iff_exists'.mp hOrderly
  simp only [Session.copy, hRound, hTotal, Option.bind_eq_some_iff, Prod.exists,
    Option.ite_none_right_eq_some, Option.some.injEq] at hNext
  obtain ⟨addr, pos, hj, _, rfl⟩ := hNext
  have hjTodo := List.mem_of_getElem? hj
  refine ⟨hReady.of_same rfl, hHeld.live, fun a o h => hHeld.memory a o (List.mem_of_mem_eraseIdx h),
    fun a o h => hHeld.places a o (List.mem_of_mem_eraseIdx h), ?_⟩
  obtain ⟨n, hn, hnPlaces⟩ := hHeld.places addr pos hjTodo
  intro m hm i hRecord
  refine (hHeld.copied m hm i hRecord).imp_left fun hChosen => ⟨hChosen.1, ?_⟩
  intro a o hPlaces
  dsimp only
  by_cases hPos : o = pos
  · cases hPos
    cases hReady.places_inj (hHeld.live m hm) (hHeld.live n hn) hPlaces hnPlaces
    right
    rw [Function.update_self]
    exact hHeld.memory _ _ hjTodo
  · rw [Function.update_of_ne hPos]
    refine (hChosen.2 a o hPlaces).imp_left fun hTodo => ?_
    rcases mem_eraseIdx_or hj hTodo with hLeft | ⟨_, hSame⟩
    · exact hLeft
    · exact (hPos hSame).elim

/-- A phase that gives up in order has nothing left to copy. -/
theorem held_giveUp (hReady : Ready images s) (hHeld : Held s) (hOrderly : s.Orderly images .giveUp)
    (hNext : s.giveUp = some s') : Ready images s' ∧ Held s' := by
  cases hRound : s.round with
  | idle | snapshot _ | copied => simp [Session.giveUp, hRound] at hNext
  | count _ _ | fill _ _ _ => simp [Session.Orderly, hRound] at hOrderly
  | precopy =>
      simp only [Held, hRound] at hHeld
      simp only [Session.Orderly, hRound] at hOrderly
      simp only [Session.giveUp, hRound, Option.some.injEq] at hNext
      subst hNext
      have hNone (m : Mapping) (hm : m ∈ s.mapped) (addr pos : Nat) : ¬Places m addr pos := by
        intro hPlaces
        have hMove := (hHeld.mem_moves hReady fun _ hm => hm).mpr ⟨m, hm, hPlaces⟩
        rw [hOrderly] at hMove
        cases hMove
      refine ⟨hReady.of_same rfl, hHeld, ?_, fun _ _ h => absurd h List.not_mem_nil,
        fun m hm addr pos hPlaces => (hNone m hm addr pos hPlaces).elim⟩
      intro o w _ m hm _
      obtain ⟨_, off, _, _, hOff, _⟩ := hReady.record hm
      exact (hNone m hm _ _ ⟨off, hOff, 0, (hReady.inv.owned.pos m hm).2, rfl, rfl⟩).elim
  | copying todo =>
      simp only [Held, hRound] at hHeld
      simp only [Session.Orderly, hRound] at hOrderly
      simp only [Session.giveUp, hRound, Option.some.injEq] at hNext
      subst hNext hOrderly
      exact ⟨hReady.of_same rfl, hHeld.listed, hHeld.accounted, hHeld.places, hHeld.copied⟩
  | recopying todo =>
      simp only [Held, hRound] at hHeld
      simp only [Session.Orderly, hRound] at hOrderly
      simp only [Session.giveUp, hRound, Option.some.injEq] at hNext
      subst hNext hOrderly
      exact ⟨hReady.of_same rfl, hHeld.live, hHeld.memory, hHeld.places, hHeld.copied⟩

theorem Beside.held (h : Beside images s s') (hReady : Ready images s) (hHeld : Held s) :
    Ready images s' ∧ Held s' := by
  refine ⟨h.ready, ?_⟩
  rcases h.runs with ⟨_, hIdle⟩ | hRuns
  · rw [Held, hIdle]
    trivial
  · exact hHeld.runs hReady hRuns

/-- An orderly step keeps what holds at all times and what the round has reached. -/
theorem held_next {event : Event} (hOrderly : s.Orderly images event)
    (h : Ready images s ∧ Held s) (hNext : s.next images event = some s') :
    Ready images s' ∧ Held s' := by
  obtain ⟨hReady, hHeld⟩ := h
  cases event with
  | call c => exact (beside_call hReady hOrderly hNext).held hReady hHeld
  | issue o request => exact (beside_issue hReady hOrderly hNext).held hReady hHeld
  | launch o => exact (beside_launch hReady hNext).held hReady hHeld
  | mark o => exact (beside_mark hReady hNext).held hReady hHeld
  | execute o j => exact (beside_execute hReady hOrderly hNext).held hReady hHeld
  | advance => exact ⟨ready_advance hReady hNext, held_advance hReady hHeld hOrderly hNext⟩
  | copy j =>
      cases hRound : s.round with
      | copying todo => exact held_copy_base hReady hHeld hRound hNext
      | recopying todo => exact held_copy_delta hReady hHeld hRound hOrderly hNext
      | _ => simp [Session.next, Session.copy, hRound] at hNext
  | giveUp => exact held_giveUp hReady hHeld hOrderly hNext

/-- When nothing is left to copy, the images have what was live at the stall. -/
theorem Held.consistent (hReady : Ready images s) (h : Held s) (hRound : s.round = .recopying []) :
    s.Consistent := by
  simp only [Held, hRound] at h
  intro m hm
  obtain ⟨i, off, _, hRecord, hOff, _⟩ := hReady.record (h.live m hm)
  refine ⟨i, off, hRecord, hOff, fun k hk => ?_⟩
  have hPlaces : Places m (m.va + k) (off + k) := ⟨off, hOff, k, hk, rfl, rfl⟩
  rcases h.copied m hm i hRecord with ⟨hChosen, hDelta⟩ | ⟨hNot, hBase⟩
  · rw [if_pos hChosen]
    exact (hDelta _ _ hPlaces).resolve_left List.not_mem_nil
  · rw [if_neg hNot]
    exact hBase _ _ hPlaces

/-- A round that ends leaves consistent images. -/
def EndsConsistent (s : Session) (event : Event) : Prop :=
  event = .advance → s.round = .recopying [] → s.Consistent

/-- In every run whose steps are orderly, each round that ends leaves in the images all that
was live at its stall, as it was then. -/
theorem consistent_of_orderly (images : Images) (memory base delta : Nat → UInt8)
    (events : List Event)
    (hOrderly : Along (Session.next images) (Session.Orderly images) (.start memory base delta) events) :
    Along (Session.next images) EndsConsistent (.start memory base delta) events := by
  refine along_of_invariant (fun _ _ _ => held_next) ?_ events _
    ⟨ready_start images memory base delta, trivial⟩ hOrderly
  rintro s event s' _ ⟨hReady, hHeld⟩ _ _ hRound
  exact hHeld.consistent hReady hRound

/-- Both images with room, and buffers of a megabyte. -/
def twoImages : Images := ⟨some 0x1000, some 0x1000, ⟨2 ^ 20, Staging.least⟩⟩

def blank (_ : Nat) : UInt8 := 0

/-- A round over one buffer; while Phase 2 copies it, a memset writes a byte of it. -/
def lateMemset : List Event :=
  [.call (.alloc false 0x100 2), .advance, .advance, .advance, .advance,
    .issue 0 (.call 0x100 [(0x101, 7)]), .launch 0, .copy 0, .copy 0, .execute 0 0, .mark 0, .advance,
    .advance, .advance, .advance, .advance, .advance, .copy 0, .copy 0, .advance]

theorem endsConsistent_lateMemset :
    Along (Session.next twoImages) EndsConsistent (.start blank blank blank) lateMemset := by
  apply consistent_of_orderly twoImages blank blank blank lateMemset
  refine along_cons rfl ⟨fun _ _ => ⟨by decide, fun total hTotal => ?_⟩, fun _ _ _ _ _ => ?_⟩ ?_
  · cases hTotal
    exact .inl (by decide)
  · exact ⟨by decide, fun h => h⟩
  iterate 3 refine along_cons rfl trivial ?_
  refine along_cons rfl ?_ ?_
  · rintro m _ ⟨o, ⟨w, hw, _⟩, _⟩
    cases hw
  refine along_cons rfl (by decide : Finds [_] _) ?_
  iterate 3 refine along_cons rfl trivial ?_
  refine along_cons rfl (fun _ _ h => h) ?_
  iterate 3 refine along_cons rfl trivial ?_
  refine along_cons rfl ?_ ?_
  · rintro snap _ m _ _ ⟨o, _, a, ha, _⟩
    by_cases hZero : o = 0
    · subst hZero
      cases ha
    · refine (List.eq_nil_iff_forall_not_mem.mp ?_ a ha).elim
      iterate 4 refine (congrArg Op.pending (Function.update_of_ne hZero _ _)).trans ?_
      rfl
  refine along_cons rfl (fun snap hSnap => by cases hSnap) ?_
  iterate 2 refine along_cons rfl trivial ?_
  iterate 2 refine along_cons rfl (fun h => by cases h) ?_
  exact along_cons rfl trivial trivial

/-- A kernel is marked and launched before a round, which clears the flag of its buffer. The
device executes it when Phase 2 has copied the buffer. -/
def lateKernel : List Event :=
  [.call (.alloc false 0x100 2), .issue 0 (.kernel [0x100] [(0x101, 7)]), .mark 0, .launch 0, .advance,
    .advance, .advance, .advance, .copy 0, .copy 0, .execute 0 0, .advance, .advance, .advance, .advance]

theorem not_endsConsistent_lateKernel :
    ¬ ∀ (images : Images) (memory base delta : Nat → UInt8) (events : List Event),
      Along (Session.next images) EndsConsistent (.start memory base delta) events := by
  intro h
  have hEnd : ((execute (Session.next twoImages) (.start blank blank blank) lateKernel).any fun s =>
      decide (s.round = .recopying [] ∧ s.chosen = [] ∧ s.base 1 = 0 ∧ s.stalled 0x101 = 7 ∧
        s.live.map (fun m => (m.outcome.slot, m.toRegion)) = [(some 0, ⟨0x100, 2⟩)])) = true := by
    decide +kernel
  obtain ⟨s, hRun, hEnd⟩ := (Option.any_eq_true _ _).mp hEnd
  obtain ⟨hRound, hChosen, hBase, hStalled, hLive⟩ := of_decide_eq_true hEnd
  obtain ⟨m, _, hCons, hm, _⟩ := List.map_eq_cons_iff.mp hLive
  obtain ⟨hSlot, hRegion⟩ := Prod.mk.inj hm
  have hAdvance : s.next twoImages .advance = some { s with round := .idle } := by
    simp [Session.next, Session.advance, hRound]
  have hConsistent := ((h twoImages blank blank blank (lateKernel ++ [.advance])).reached hRun _
    hAdvance).1 rfl hRound
  obtain ⟨i, off, hi, hOff, hBytes⟩ := hConsistent m (hCons ▸ List.mem_cons_self)
  cases hOff.symm.trans hSlot
  have hByte := hBytes 1 (by rw [hRegion]; decide)
  rw [if_neg (hChosen ▸ List.not_mem_nil), hRegion, hBase, hStalled] at hByte
  cases hByte

end FlashCkpt.Emul.Phos
