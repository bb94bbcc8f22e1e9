import FlashCkpt.Agent.Rounds
import FlashCkpt.Restore.InApp

/-! The allocation table of the gate: the hooks of `libckpt_vllm.c` append an entry for
each allocation and set its flags, and `ckpt_core` takes the ranges of flagged entries
for weights that never change. Freed entries stay in the table. -/
namespace FlashCkpt.Static

open Image Restore Transition

/-- `ckpt_alloc_entry_t`, with `CKPT_ALLOC_FLAG_H2D` and `CKPT_ALLOC_FLAG_FREED`. -/
structure AllocEntry where
  va : Nat
  size : Nat
  h2d : Bool
  freed : Bool
  deriving DecidableEq, Repr

namespace AllocEntry

variable (e f : AllocEntry)

def Covers (addr : Nat) : Prop := e.va ≤ addr ∧ addr < e.va + e.size

instance (addr : Nat) : Decidable (e.Covers addr) := inferInstanceAs (Decidable (_ ∧ _))

def Contains (r : VaRange) : Prop := e.va ≤ r.va ∧ r.va + r.size ≤ e.va + e.size

instance (r : VaRange) : Decidable (e.Contains r) := inferInstanceAs (Decidable (_ ∧ _))

def Apart : Prop := e.va + e.size ≤ f.va ∨ f.va + f.size ≤ e.va

instance : Decidable (e.Apart f) := inferInstanceAs (Decidable (_ ∨ _))

def toGateAlloc : GateAlloc := ⟨e.va, e.size, e.h2d⟩

end AllocEntry

/-- The gate as the allocation hooks leave it. -/
structure Gate where
  userVa : Nat
  userSize : Nat
  table : List AllocEntry

/-- `gate_record_alloc`. -/
def Gate.gateRecordAlloc (g : Gate) (va size : Nat) : Gate :=
  if va = 0 then g
  else
    let h := if g.userSize < size then { g with userVa := va, userSize := size } else g
    if h.table.length < gateAllocMax then
      { h with table := h.table ++ [⟨va, size, false, false⟩] }
    else h

def freeFirst (va : Nat) : List AllocEntry → List AllocEntry
  | [] => []
  | e :: rest =>
      if e.va = va ∧ e.freed = false then { e with freed := true } :: rest
      else e :: freeFirst va rest

/-- `gate_mark_freed`: the last live entry with the address. -/
def Gate.gateMarkFreed (g : Gate) (va : Nat) : Gate :=
  if va = 0 then g else { g with table := (freeFirst va g.table.reverse).reverse }

def flagFirst (addr : Nat) : List AllocEntry → List AllocEntry
  | [] => []
  | e :: rest => if e.Covers addr then { e with h2d := true } :: rest else e :: flagFirst addr rest

/-- `mark_h2d_flag`: the first entry that covers the address. -/
def Gate.markH2dFlag (g : Gate) (addr : Nat) : Gate :=
  { g with table := flagFirst addr g.table }

/-- Whether copies save the weights, and whether there is a key to save them with. -/
structure Config where
  saveWeights : Bool
  keyReady : Bool

/-- The copy reaches the table: `save_h2d_weight` leaves out small copies and those it
has no key for. -/
def Config.marks (cfg : Config) (count : Nat) : Bool :=
  !cfg.saveWeights || (decide (4096 ≤ count) && cfg.keyReady)

/-- The hook of `cudaMemcpy` after a copy from the host. -/
def Gate.copied (cfg : Config) (g : Gate) (addr count : Nat) : Gate :=
  if cfg.marks count then g.markH2dFlag addr else g

/-- Managed memory the application holds, and whether a copy from the host went there. -/
structure Alloc where
  va : Nat
  size : Nat
  loaded : Bool
  deriving DecidableEq, Repr

namespace Alloc

variable (a b : Alloc)

def Covers (addr : Nat) : Prop := a.va ≤ addr ∧ addr < a.va + a.size

instance (addr : Nat) : Decidable (a.Covers addr) := inferInstanceAs (Decidable (_ ∧ _))

def Meets (r : VaRange) : Prop := a.va < r.va + r.size ∧ r.va < a.va + a.size

instance (r : VaRange) : Decidable (a.Meets r) := inferInstanceAs (Decidable (_ ∧ _))

def Apart : Prop := a.va + a.size ≤ b.va ∨ b.va + b.size ≤ a.va

instance : Decidable (a.Apart b) := inferInstanceAs (Decidable (_ ∨ _))

instance : Std.Symm Apart := ⟨fun _ _ h => Or.symm h⟩

end Alloc

structure State where
  gate : Gate
  live : List Alloc

def State.init : State := ⟨⟨0, 0, []⟩, []⟩

/-- What the application does, and step [1] of a checkpoint over the ranges the driver
reports, with the number of entries that `main` read before. -/
inductive Event where
  | alloc (va size : Nat)
  | free (va : Nat)
  | copy (addr count : Nat)
  | checkpoint (staticImg : Bool) (nAllocs : Nat) (ranges : List VaRange)

/-- The allocator answers with memory that no one holds. -/
def next (cfg : Config) (s : State) : Event → Option State
  | .alloc va size =>
      if 0 < va ∧ 0 < size ∧ ∀ a ∈ s.live, a.Apart ⟨va, size, false⟩ then
        some ⟨s.gate.gateRecordAlloc va size, s.live ++ [⟨va, size, false⟩]⟩
      else none
  | .free va => some ⟨s.gate.gateMarkFreed va, s.live.filter (·.va ≠ va)⟩
  | .copy addr count =>
      some ⟨s.gate.copied cfg addr count,
        s.live.map fun a => if a.Covers addr then { a with loaded := true } else a⟩
  | .checkpoint _ _ _ => some s

namespace State

variable (s : State)

/-- The filter of `main` over the entries it counted. -/
def filter (staticImg : Bool) (nAllocs : Nat) : Filter :=
  ⟨(s.gate.table.take nAllocs).map AllocEntry.toGateAlloc, s.gate.userVa, s.gate.userSize, staticImg⟩

/-- The entry is that of memory the application holds. -/
def IsLive (e : AllocEntry) : Prop :=
  e.freed = false ∧ ∃ a ∈ s.live, a.va = e.va ∧ a.size = e.size

/-- A copy sets the flag in the live entry of its destination. A checkpoint reads the
flag of a range there, and leaves it out as static only if what the application holds
there was loaded by a copy. -/
def Sound (cfg : Config) : Event → Prop
  | .alloc _ _ | .free _ => True
  | .copy addr count => cfg.marks count →
      ∀ e, s.gate.table.find? (·.Covers addr) = some e → s.IsLive e
  | .checkpoint staticImg nAllocs ranges => ∀ r ∈ ranges,
      (∀ e, (s.gate.table.take nAllocs).find? (·.Contains r) = some e → s.IsLive e) ∧
        (Agent.staticRange (s.filter staticImg nAllocs) r = true →
          ∀ a ∈ s.live, a.Meets r → a.loaded = true)

/-- No copy goes to, and no managed range lies in, the place of an allocation that was
recorded and freed. -/
def NotReused (cfg : Config) : Event → Prop
  | .alloc _ _ | .free _ => True
  | .copy addr count => cfg.marks count →
      ∀ e ∈ s.gate.table, e.freed = true → ¬e.Covers addr
  | .checkpoint _ nAllocs ranges => ∀ r ∈ ranges,
      ∀ e ∈ s.gate.table.take nAllocs, e.freed = true → ¬e.Contains r

end State

/-- The first entry that meets a condition is not freed if and only if no freed entry
meets it, in a table where what comes after a live entry does not overlap with it. -/
theorem find?_live_iff {table : List AllocEntry} {c : AllocEntry → Bool}
    (hOrder : table.Pairwise fun e f => e.freed = false → e.Apart f)
    (hOverlap : ∀ e f, c e = true → c f = true → ¬e.Apart f) :
    (∀ e, table.find? c = some e → e.freed = false) ↔
      ∀ e ∈ table, e.freed = true → ¬c e = true := by
  constructor
  · intro h f hf hFreed hc
    obtain ⟨e, he⟩ := Option.isSome_iff_exists.mp (List.find?_isSome.mpr ⟨f, hf, hc⟩)
    have hLive := h e he
    obtain ⟨hce, before, after, rfl, hBefore⟩ := List.find?_eq_some_iff_append.mp he
    rcases List.mem_append.mp hf with hf | hf
    · have hNot := hBefore f hf
      rw [hc] at hNot
      exact absurd hNot (by decide)
    · rcases List.mem_cons.mp hf with rfl | hf
      · exact Bool.false_ne_true (hLive.symm.trans hFreed)
      · have hApart := (List.pairwise_cons.mp (List.pairwise_append.mp hOrder).2.1).1 f hf hLive
        exact hOverlap e f hce hc hApart
  · intro h e he
    have hNot := h e (List.mem_of_find?_eq_some he)
    cases hFreed : e.freed with
    | false => rfl
    | true => exact absurd (List.find?_some he) (hNot hFreed)

/-- What a hook that sets flags keeps of an entry. -/
structure Updated (e f : AllocEntry) : Prop where
  va : f.va = e.va
  size : f.size = e.size
  freed : f.freed = false → e.freed = false

theorem Updated.refl (e : AllocEntry) : Updated e e := ⟨rfl, rfl, id⟩

theorem updated_flagFirst (addr : Nat) (table : List AllocEntry) :
    List.Forall₂ (fun e f => Updated e f ∧ (f.h2d = true → e.h2d = true ∨ e.Covers addr)) table
      (flagFirst addr table) := by
  induction table with
  | nil => exact .nil
  | cons e rest ih =>
      rw [flagFirst]
      split
      · rename_i hCovers
        exact .cons ⟨⟨rfl, rfl, id⟩, fun _ => .inr hCovers⟩
          (List.forall₂_same.mpr fun f _ => ⟨.refl f, .inl⟩)
      · exact .cons ⟨.refl e, .inl⟩ ih

theorem updated_freeFirst (va : Nat) (table : List AllocEntry) :
    List.Forall₂ (fun e f => Updated e f ∧ f.h2d = e.h2d) table (freeFirst va table) := by
  induction table with
  | nil => exact .nil
  | cons e rest ih =>
      rw [freeFirst]
      split
      · rename_i hLast
        exact .cons ⟨⟨rfl, rfl, fun _ => hLast.2⟩, rfl⟩
          (List.forall₂_same.mpr fun f _ => ⟨.refl f, rfl⟩)
      · exact .cons ⟨.refl e, rfl⟩ ih

theorem updated_gateMarkFreed (g : Gate) (va : Nat) :
    List.Forall₂ (fun e f => Updated e f ∧ f.h2d = e.h2d) g.table (g.gateMarkFreed va).table := by
  rw [Gate.gateMarkFreed]
  split
  · exact List.forall₂_same.mpr fun f _ => ⟨.refl f, rfl⟩
  · have h := updated_freeFirst va g.table.reverse
    rwa [← List.forall₂_reverse_iff, List.reverse_reverse] at h

theorem exists_of_updated {R : AllocEntry → AllocEntry → Prop} {table table' : List AllocEntry}
    (h : List.Forall₂ R table table') {f : AllocEntry} (hf : f ∈ table') : ∃ e ∈ table, R e f := by
  induction h with
  | nil => cases hf
  | @cons e f' rest rest' hR _ ih =>
      rcases List.mem_cons.mp hf with rfl | hf
      · exact ⟨e, List.mem_cons_self, hR⟩
      · obtain ⟨e', he', hR'⟩ := ih hf
        exact ⟨e', List.mem_cons_of_mem e he', hR'⟩

/-- An entry that was recorded while another one was live is apart from it. -/
structure Ordered (table : List AllocEntry) : Prop where
  pos : ∀ e ∈ table, 0 < e.va ∧ 0 < e.size
  order : table.Pairwise fun e f => e.freed = false → e.Apart f

theorem Ordered.update {R : AllocEntry → AllocEntry → Prop} {table table' : List AllocEntry}
    (h : Ordered table) (hUpdate : List.Forall₂ R table table') (hR : ∀ e f, R e f → Updated e f) :
    Ordered table' := by
  refine ⟨fun f hf => ?_, ?_⟩
  · obtain ⟨e, he, hef⟩ := exists_of_updated hUpdate hf
    rw [(hR e f hef).va, (hR e f hef).size]
    exact h.pos e he
  · have hOrder := h.order
    clear h
    induction hUpdate with
    | nil => exact .nil
    | @cons e f rest rest' hef hRest ih =>
        obtain ⟨hHead, hTail⟩ := List.pairwise_cons.mp hOrder
        refine .cons (fun f' hf' hLive => ?_) (ih hTail)
        obtain ⟨e', he', hef'⟩ := exists_of_updated hRest hf'
        have hApart := hHead e' he' ((hR e f hef).freed hLive)
        rw [AllocEntry.Apart] at hApart ⊢
        rwa [(hR e f hef).va, (hR e f hef).size, (hR e' f' hef').va, (hR e' f' hef').size]

theorem Ordered.append {table : List AllocEntry} (h : Ordered table) {f : AllocEntry}
    (hPos : 0 < f.va ∧ 0 < f.size) (hApart : ∀ e ∈ table, e.freed = false → e.Apart f) :
    Ordered (table ++ [f]) := by
  refine ⟨?_, List.pairwise_append.mpr ⟨h.order, List.pairwise_singleton _ _, ?_⟩⟩
  · intro e he
    rcases List.mem_append.mp he with he | he
    · exact h.pos e he
    · cases List.mem_singleton.mp he
      exact hPos
  · intro e he f' hf'
    cases List.mem_singleton.mp hf'
    exact hApart e he

/-- After a free no entry with the address is live. -/
theorem freed_freeFirst {va : Nat} {table : List AllocEntry}
    (hOnce : table.Pairwise fun e f => e.va = va → f.va = va → e.freed = false → f.freed = true)
    {f : AllocEntry} (hf : f ∈ freeFirst va table) (hVa : f.va = va) : f.freed = true := by
  induction table with
  | nil => cases hf
  | cons e rest ih =>
      obtain ⟨hHead, hTail⟩ := List.pairwise_cons.mp hOnce
      rw [freeFirst] at hf
      split at hf
      · rename_i hLast
        rcases List.mem_cons.mp hf with rfl | hf
        · rfl
        · exact hHead f hf hLast.1 hVa hLast.2
      · rename_i hNot
        rcases List.mem_cons.mp hf with rfl | hf
        · cases hFreed : f.freed with
          | false => exact absurd ⟨hVa, hFreed⟩ hNot
          | true => rfl
        · exact ih hTail hf

/-- The live entries are what the application holds, and a flag on one of them comes from
a copy to it. -/
structure Inv (s : State) : Prop where
  ordered : Ordered s.gate.table
  entry : ∀ e ∈ s.gate.table, e.freed = false →
    ∃ a ∈ s.live, a.va = e.va ∧ a.size = e.size ∧ (e.h2d = true → a.loaded = true)
  apart : s.live.Pairwise Alloc.Apart

theorem inv_init : Inv .init where
  ordered := ⟨fun _ he => absurd he List.not_mem_nil, List.Pairwise.nil⟩
  entry := fun _ he => absurd he List.not_mem_nil
  apart := List.Pairwise.nil

theorem gateRecordAlloc_table (g : Gate) {va : Nat} (hVa : 0 < va) (size : Nat) :
    (g.gateRecordAlloc va size).table = g.table ∨
      (g.gateRecordAlloc va size).table = g.table ++ [⟨va, size, false, false⟩] := by
  simp only [Gate.gateRecordAlloc, if_neg (Nat.pos_iff_ne_zero.mp hVa)]
  by_cases hRoom : g.table.length < gateAllocMax
  · by_cases hUser : g.userSize < size
    · exact .inr (by simp [hRoom, hUser])
    · exact .inr (by simp [hRoom, hUser])
  · by_cases hUser : g.userSize < size
    · exact .inl (by simp [hRoom, hUser])
    · exact .inl (by simp [hRoom, hUser])

theorem Inv.alloc {s : State} (h : Inv s) {va size : Nat} (hVa : 0 < va) (hSize : 0 < size)
    (hApart : ∀ a ∈ s.live, a.Apart ⟨va, size, false⟩) :
    Inv ⟨s.gate.gateRecordAlloc va size, s.live ++ [⟨va, size, false⟩]⟩ := by
  have hLive : (s.live ++ [(⟨va, size, false⟩ : Alloc)]).Pairwise Alloc.Apart := by
    refine List.pairwise_append.mpr ⟨h.apart, List.pairwise_singleton _ _, ?_⟩
    intro a ha b hb
    cases List.mem_singleton.mp hb
    exact hApart a ha
  have hOld : ∀ e ∈ s.gate.table, e.freed = false → ∃ a ∈ s.live ++ [(⟨va, size, false⟩ : Alloc)],
      a.va = e.va ∧ a.size = e.size ∧ (e.h2d = true → a.loaded = true) := by
    intro e he hFreed
    obtain ⟨a, ha, hSame⟩ := h.entry e he hFreed
    exact ⟨a, List.mem_append_left _ ha, hSame⟩
  rcases gateRecordAlloc_table s.gate hVa size with hTable | hTable
  · refine ⟨?_, ?_, hLive⟩
    · dsimp only
      rw [hTable]
      exact h.ordered
    · dsimp only
      rw [hTable]
      exact hOld
  · refine ⟨?_, ?_, hLive⟩
    · dsimp only
      rw [hTable]
      refine h.ordered.append ⟨hVa, hSize⟩ fun e he hFreed => ?_
      obtain ⟨a, ha, haVa, haSize, -⟩ := h.entry e he hFreed
      have := hApart a ha
      rw [Alloc.Apart, haVa, haSize] at this
      exact this
    · dsimp only
      rw [hTable]
      intro e he hFreed
      rcases List.mem_append.mp he with he | he
      · exact hOld e he hFreed
      · cases List.mem_singleton.mp he
        exact ⟨_, List.mem_append_right _ List.mem_cons_self, rfl, rfl,
          fun hFlag => absurd hFlag Bool.false_ne_true⟩

theorem Inv.free {s : State} (h : Inv s) (va : Nat) :
    Inv ⟨s.gate.gateMarkFreed va, s.live.filter (·.va ≠ va)⟩ := by
  have hUpdate := updated_gateMarkFreed s.gate va
  refine ⟨h.ordered.update hUpdate fun e f hef => hef.1, ?_, h.apart.filter _⟩
  intro f hf hFreed
  obtain ⟨e, he, hef, hFlag⟩ := exists_of_updated hUpdate hf
  obtain ⟨a, ha, haVa, haSize, hLoaded⟩ := h.entry e he (hef.freed hFreed)
  have hOther : f.va ≠ va := by
    intro hVa
    have hPos : va ≠ 0 := by
      have := (h.ordered.pos e he).1
      rw [← hVa, hef.va]
      omega
    have hMem : f ∈ freeFirst va s.gate.table.reverse := by
      dsimp only at hf
      rw [Gate.gateMarkFreed, if_neg hPos] at hf
      exact List.mem_reverse.mp hf
    have hOnce : s.gate.table.reverse.Pairwise
        fun e f => e.va = va → f.va = va → e.freed = false → f.freed = true := by
      rw [List.pairwise_reverse]
      refine h.ordered.order.imp_of_mem fun {e f} he hf hApart hfVa heVa _ => ?_
      cases heFreed : e.freed with
      | true => rfl
      | false =>
          have := hApart heFreed
          have := (h.ordered.pos e he).2
          have := (h.ordered.pos f hf).2
          rw [AllocEntry.Apart, heVa, hfVa] at *
          omega
    exact Bool.false_ne_true (hFreed.symm.trans (freed_freeFirst hOnce hMem hVa))
  refine ⟨a, List.mem_filter.mpr ⟨ha, ?_⟩, haVa.trans hef.va.symm, haSize.trans hef.size.symm, ?_⟩
  · rw [haVa, ← hef.va]
    exact decide_eq_true hOther
  · rw [hFlag]
    exact hLoaded

/-- What a copy does to the memory the application holds. -/
def loadAt (addr : Nat) (a : Alloc) : Alloc := if a.Covers addr then { a with loaded := true } else a

theorem loadAt_extent (addr : Nat) (a : Alloc) :
    (loadAt addr a).va = a.va ∧ (loadAt addr a).size = a.size := by
  rw [loadAt]
  split
  · exact ⟨rfl, rfl⟩
  · exact ⟨rfl, rfl⟩

theorem loadAt_loaded {addr : Nat} {a : Alloc} (h : a.loaded = true ∨ a.Covers addr) :
    (loadAt addr a).loaded = true := by
  rw [loadAt]
  split
  · rfl
  · rename_i hNot
    exact h.resolve_right hNot

theorem Inv.copy {s : State} (h : Inv s) (cfg : Config) (addr count : Nat) :
    Inv ⟨s.gate.copied cfg addr count, s.live.map (loadAt addr)⟩ := by
  have hLive : (s.live.map (loadAt addr)).Pairwise Alloc.Apart := by
    refine List.Pairwise.map _ (fun a b hApart => ?_) h.apart
    rw [Alloc.Apart] at hApart ⊢
    rwa [(loadAt_extent addr a).1, (loadAt_extent addr a).2, (loadAt_extent addr b).1,
      (loadAt_extent addr b).2]
  have hUpdate : List.Forall₂
      (fun e f => Updated e f ∧ (f.h2d = true → e.h2d = true ∨ e.Covers addr)) s.gate.table
      (s.gate.copied cfg addr count).table := by
    rw [Gate.copied]
    split
    · exact updated_flagFirst addr s.gate.table
    · exact List.forall₂_same.mpr fun f _ => ⟨.refl f, .inl⟩
  refine ⟨h.ordered.update hUpdate fun e f hef => hef.1, ?_, hLive⟩
  intro f hf hFreed
  obtain ⟨e, he, hef, hFlag⟩ := exists_of_updated hUpdate hf
  obtain ⟨a, ha, haVa, haSize, hLoaded⟩ := h.entry e he (hef.freed hFreed)
  refine ⟨loadAt addr a, List.mem_map_of_mem ha, ?_, ?_, fun hSet => loadAt_loaded ?_⟩
  · rw [(loadAt_extent addr a).1, haVa, hef.va]
  · rw [(loadAt_extent addr a).2, haSize, hef.size]
  · rcases hFlag hSet with hOld | hCovers
    · exact .inl (hLoaded hOld)
    · refine .inr ?_
      rw [AllocEntry.Covers] at hCovers
      rwa [Alloc.Covers, haVa, haSize]

theorem Inv.next {cfg : Config} {s t : State} (h : Inv s) (event : Event)
    (hNext : next cfg s event = some t) : Inv t := by
  cases event with
  | alloc va size =>
      rw [Static.next] at hNext
      split at hNext
      · rename_i hNew
        cases hNext
        exact h.alloc hNew.1 hNew.2.1 hNew.2.2
      · cases hNext
  | free va =>
      cases hNext
      exact h.free va
  | copy addr count =>
      cases hNext
      exact h.copy cfg addr count
  | checkpoint staticImg nAllocs ranges =>
      cases hNext
      exact h

section Step

variable {cfg : Config} {s : State}

theorem Inv.isLive (h : Inv s) {e : AllocEntry} (he : e ∈ s.gate.table) :
    s.IsLive e ↔ e.freed = false := by
  refine ⟨fun hLive => hLive.1, fun hFreed => ⟨hFreed, ?_⟩⟩
  obtain ⟨a, ha, hVa, hSize, -⟩ := h.entry e he hFreed
  exact ⟨a, ha, hVa, hSize⟩

/-- The entry that a scan of the table finds is live exactly when no freed one is there
to be found. -/
theorem Inv.find?_isLive (h : Inv s) {table : List AllocEntry} (hSub : table.Sublist s.gate.table)
    {c : AllocEntry → Bool} (hOverlap : ∀ e f, c e = true → c f = true → ¬e.Apart f) :
    (∀ e, table.find? c = some e → s.IsLive e) ↔ ∀ e ∈ table, e.freed = true → ¬c e = true := by
  rw [← find?_live_iff (h.ordered.order.sublist hSub) hOverlap]
  exact forall₂_congr fun e he => h.isLive (hSub.mem (List.mem_of_find?_eq_some he))

theorem covers_overlap {addr : Nat} (e f : AllocEntry) (he : e.Covers addr) (hf : f.Covers addr) :
    ¬e.Apart f := by
  rw [AllocEntry.Covers] at he hf
  rw [AllocEntry.Apart]
  omega

theorem contains_overlap {r : VaRange} (e f : AllocEntry) (he : e.Contains r) (hf : f.Contains r) :
    ¬e.Apart f := by
  have hPos : 0 < r.size := Nat.mul_pos r.pos (by decide)
  rw [AllocEntry.Contains] at he hf
  rw [AllocEntry.Apart]
  omega

/-- A range is static when the first entry it lies in has the flag. -/
theorem staticRange_filter {staticImg : Bool} {nAllocs : Nat} {r : VaRange}
    (h : Agent.staticRange (s.filter staticImg nAllocs) r = true) :
    ∃ e, (s.gate.table.take nAllocs).find? (·.Contains r) = some e ∧ e.h2d = true := by
  have hFind : ((s.filter staticImg nAllocs).allocs.find? fun a =>
      a.va ≤ r.va && r.va + r.size ≤ a.va + a.size) =
      ((s.gate.table.take nAllocs).find? (·.Contains r)).map AllocEntry.toGateAlloc := by
    rw [State.filter, List.find?_map]
    congr 2
    funext e
    exact (Bool.decide_and _ _).symm
  rw [Agent.staticRange, hFind, Bool.and_eq_true] at h
  cases hEntry : (s.gate.table.take nAllocs).find? (·.Contains r) with
  | none => simp [hEntry] at h
  | some e => exact ⟨e, rfl, by simpa [hEntry, AllocEntry.toGateAlloc] using h.2⟩

theorem Inv.loaded_of_static (h : Inv s) {staticImg : Bool} {nAllocs : Nat} {r : VaRange}
    (hLive : ∀ e, (s.gate.table.take nAllocs).find? (·.Contains r) = some e → s.IsLive e)
    (hStatic : Agent.staticRange (s.filter staticImg nAllocs) r = true) {a : Alloc}
    (ha : a ∈ s.live) (hMeets : a.Meets r) : a.loaded = true := by
  obtain ⟨e, hFind, hFlag⟩ := staticRange_filter hStatic
  have he : e ∈ s.gate.table :=
    (List.take_sublist nAllocs s.gate.table).mem (List.mem_of_find?_eq_some hFind)
  have hIn : e.Contains r := by simpa using List.find?_some hFind
  obtain ⟨b, hb, hVa, hSize, hLoaded⟩ := h.entry e he (hLive e hFind).1
  have hSame : a = b := by
    by_contra hNot
    have hApart : a.Apart b := h.apart.forall ha hb hNot
    rw [AllocEntry.Contains] at hIn
    rw [Alloc.Meets] at hMeets
    rw [Alloc.Apart] at hApart
    omega
  rw [hSame]
  exact hLoaded hFlag

theorem sound_iff (h : Inv s) (event : Event) : s.Sound cfg event ↔ s.NotReused cfg event := by
  cases event with
  | alloc va size => exact Iff.rfl
  | free va => exact Iff.rfl
  | copy addr count =>
      refine imp_congr_right fun _ => ?_
      rw [h.find?_isLive (List.Sublist.refl _) fun e f he hf =>
        covers_overlap e f (of_decide_eq_true he) (of_decide_eq_true hf)]
      simp only [decide_eq_true_eq]
  | checkpoint staticImg nAllocs ranges =>
      refine forall₂_congr fun r _ => ?_
      have hScan := h.find?_isLive (List.take_sublist nAllocs s.gate.table)
        (c := fun e => decide (e.Contains r)) fun e f he hf =>
          contains_overlap e f (of_decide_eq_true he) (of_decide_eq_true hf)
      simp only [decide_eq_true_eq] at hScan
      rw [hScan, and_iff_left_iff_imp]
      exact fun hNot hStatic a ha hMeets => h.loaded_of_static (hScan.mpr hNot) hStatic ha hMeets

end Step

/-- In every run flags land on, and are read from, live entries, and only loaded memory
is left out as static, if and only if no copy and no range meets a freed entry. -/
theorem staticSound_iff (cfg : Config) (events : List Event) :
    Along (next cfg) (fun s event => s.Sound cfg event) .init events ↔
      Along (next cfg) (fun s event => s.NotReused cfg event) .init events := by
  have hStep : ∀ (s : State) event t, Inv s → next cfg s event = some t → Inv t :=
    fun _ event _ h hNext => h.next event hNext
  have hSame : ∀ (s : State) event, Inv s → (s.Sound cfg event ↔ s.NotReused cfg event) :=
    fun _ event h => sound_iff h event
  exact along_congr_of_invariant hStep hSame inv_init events

/-- One page is loaded and freed, and its address given to memory that is not. -/
def reusedPage : List Event :=
  [.alloc 4096 4096, .copy 4096 4096, .free 4096, .alloc 4096 4096,
    .checkpoint true 2 [⟨1, 1, Nat.one_pos⟩]]

/-- The checkpoint leaves the page out as static, though no copy went to it. -/
theorem not_staticSound_reusedPage :
    ¬Along (next ⟨false, true⟩) (fun s event => s.Sound ⟨false, true⟩ event) .init reusedPage := by
  intro h
  have hSound := ((((h _ rfl).2 _ rfl).2 _ rfl).2 _ rfl).2 _ rfl
  have hLoaded := (hSound.1 _ List.mem_cons_self).2 (by decide) ⟨4096, 4096, false⟩
    (by decide) (by decide)
  exact Bool.false_ne_true hLoaded

end FlashCkpt.Static
