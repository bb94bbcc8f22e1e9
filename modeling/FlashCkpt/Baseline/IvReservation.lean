import FlashCkpt.Baseline.Run
import FlashCkpt.Library.Transition
import Mathlib.Data.List.Flatten
import Mathlib.Data.List.Perm.Subperm

/-! The IV counter of the process. Any number of `ckpt_baseline_run` and
`ckpt_baseline_delta` calls reserve their counters under the key lock, and
encrypt in worker threads which may run in any order. -/
namespace FlashCkpt.Baseline

open Transition Image

/-- The arguments of a call. -/
inductive Request where
  | run (allocs : List AllocEntry)
  | delta (ranges : List DirtyRange)
  deriving DecidableEq, Repr

namespace Request

def live (allocs : List AllocEntry) : List AllocEntry := allocs.filter fun e => !e.freed

/-- The ranges the launcher goes through. -/
def regions : Request → List Region
  | .run allocs => (baseDescs (live allocs) (dataStart (live allocs).length)).map descRegion
  | .delta ranges => (deltaBlocks ranges (deltaStart ranges.length)).map blockRegion

/-- The checks made while the layout is computed. A delta without ranges ends
before. -/
def valid : Request → Bool
  | .run allocs => live allocs ≠ [] && (live allocs).all fun e => e.size % cryptoChunkBytes = 0
  | .delta ranges => ranges ≠ [] && ranges.all fun r =>
      r.va % cryptoChunkBytes = 0 && r.size % cryptoChunkBytes = 0 && r.size ≠ 0

/-- The size of a staging slot in chunks. -/
def slotChunks : Request → Nat
  | .run _ => chunkBytes / cryptoChunkBytes
  | .delta _ => deltaChunkBytes / cryptoChunkBytes

/-- `total_2mb_chunks` of the layout loop. -/
def totalChunks (q : Request) : Nat := (q.regions.map (·.length / cryptoChunkBytes)).sum

/-- The items of the dispatch loop. -/
def items (q : Request) (base : Nat) : List Work :=
  dispatchAll (q.slotChunks * cryptoChunkBytes) q.regions base

end Request

/-- The chunks of an item, as a writer counts them. -/
def Work.chunks (w : Work) : Nat := w.bytes / cryptoChunkBytes % 2 ^ 32

/-- The counters of an item from one of its chunks on. -/
def Work.ivs (w : Work) (page : Nat) : List Nat := List.range' (w.baseIv + page) (w.chunks - page)

/-- A call. `readBase` is the value it reads before it reserves; the lists are the
items not yet launched, those in the queue, those a worker has with its next
chunk, and the counters it has encrypted with. -/
structure IvCall where
  request : Request
  readBase : Nat
  range : Option (Nat × Nat)
  todo : List Work
  queue : List Work
  active : List (Work × Nat)
  used : List Nat
  deriving DecidableEq, Repr

/-- `s_k3_ready` and `s_iv_base` with the calls made so far. The last two fields are
not in the program: the chunks reserved and encrypted by all calls. -/
structure IvState where
  k3Ready : Bool
  ivBase : Nat
  calls : Nat → Option IvCall
  reserved : Nat
  encrypted : Nat

def IvState.initial : IvState := ⟨false, 0, fun _ => none, 0, 0⟩

def IvState.set (s : IvState) (c : Nat) (call : IvCall) : IvState :=
  { s with calls := fun d => if d = c then some call else s.calls d }

/-- The lock is held to make and save the key, and to reserve; everything behind
that interleaves freely. -/
inductive IvLabel where
  | start (c : Nat) (request : Request) (genOk fileOk : Bool)
  | reserve (c : Nat)
  | launch (c : Nat)
  | stop (c : Nat)
  | take (c : Nat)
  | encrypt (c i : Nat)
  | retire (c i : Nat)
  deriving DecidableEq, Repr

def IvCall.fresh (request : Request) (readBase : Nat) : IvCall :=
  ⟨request, readBase, none, [], [], [], []⟩

/-- `baseline_k3_ensure_key`, or the test of a delta that the key is there. -/
def startCall (s : IvState) (c : Nat) (request : Request) (genOk fileOk : Bool) : IvState :=
  match request with
  | .run _ =>
      let ready := s.k3Ready || genOk
      if ready && fileOk then
        { s with k3Ready := ready }.set c (.fresh request s.ivBase)
      else { s with k3Ready := ready }
  | .delta _ => if s.k3Ready then s.set c (.fresh request s.ivBase) else s

/-- The reservation of a call whose layout is valid. -/
def reserveCall (s : IvState) (c : Nat) (call : IvCall) : IvState :=
  { s with ivBase := (s.ivBase + call.request.totalChunks) % 2 ^ 64
           reserved := s.reserved + call.request.totalChunks }.set c
    { call with range := some (s.ivBase, call.request.totalChunks)
                todo := call.request.items s.ivBase }

/-- One step of a call that has reserved. `stop` is any error of the launcher, also one
before the first item; `retire` ends an item, with all its chunks done or by an error. -/
def callStep (call : IvCall) : IvLabel → Option IvCall
  | .launch _ =>
      match call.todo with
      | [] => none
      | w :: rest => some { call with todo := rest, queue := call.queue ++ [w] }
  | .stop _ => some { call with todo := [] }
  | .take _ =>
      match call.queue with
      | [] => none
      | w :: rest =>
          if w.bytes < cryptoChunkBytes ∨ w.bytes % cryptoChunkBytes ≠ 0 then
            some { call with queue := rest }
          else some { call with queue := rest, active := call.active ++ [(w, 0)] }
  | .encrypt _ i =>
      match call.active[i]? with
      | none => none
      | some (w, page) =>
          if page < w.chunks then
            some { call with active := call.active.set i (w, page + 1)
                             used := call.used ++ [(w.baseIv + page) % 2 ^ 64] }
          else none
  | .retire _ i => some { call with active := call.active.eraseIdx i }
  | _ => none

def IvLabel.call : IvLabel → Nat
  | .start c _ _ _ | .reserve c | .launch c | .stop c | .take c | .encrypt c _ | .retire c _ => c

def ivNext (s : IvState) : IvLabel → Option IvState
  | .start c request genOk fileOk =>
      if s.calls c = none then some (startCall s c request genOk fileOk) else none
  | .reserve c =>
      match s.calls c with
      | none => none
      | some call =>
          if call.range = none ∧ call.request.valid then some (reserveCall s c call) else none
  | .encrypt c i =>
      (s.calls c).bind fun call => (callStep call (.encrypt c i)).map fun after =>
        { s with encrypted := s.encrypted + 1 }.set c after
  | label => (s.calls label.call).bind fun call => (callStep call label).map (s.set label.call)

/-- The counters of the chunks a call has still to encrypt. -/
def IvCall.pending (call : IvCall) : List Nat :=
  call.todo.flatMap (·.ivs 0) ++ call.queue.flatMap (·.ivs 0) ++
    call.active.flatMap fun p => p.1.ivs p.2

/-- The reserved ranges are disjoint, the chunks of a call fall into its range once,
and no counter is used twice. -/
structure IvsDistinct (s : IvState) : Prop where
  disjoint : ∀ c d k l b t b' t', c ≠ d → s.calls c = some k → s.calls d = some l →
    k.range = some (b, t) → l.range = some (b', t') → b + t ≤ b' ∨ b' + t' ≤ b
  once : ∀ c k, s.calls c = some k → (k.used ++ k.pending).Nodup
  inside : ∀ c k, s.calls c = some k → ∀ x ∈ k.used ++ k.pending,
    ∃ b t, k.range = some (b, t) ∧ b ≤ x ∧ x < b + t
  unique : ∀ c d k l, c ≠ d → s.calls c = some k → s.calls d = some l → ∀ x ∈ k.used, x ∉ l.used

section Items

theorem dispatch_ivs (cap : Nat) (hCap : 0 < cap) (hBound : cap < 2 ^ 32) (r : Region)
    (count counter start : Nat) (hLength : r.length = count * cryptoChunkBytes)
    (hStart : start ≤ count) :
    (dispatch (cap * cryptoChunkBytes) r (start * cryptoChunkBytes) counter).flatMap (·.ivs 0) =
      List.range' counter (count - start) := by
  apply dispatch_induction hCap hLength (motive := fun start counter items =>
    items.flatMap (·.ivs 0) = List.range' counter (count - start))
  · intro counter
    rw [Nat.sub_self]
    rfl
  · intro start counter chunks items hPos hRoom hMore hOthers
    have hDiv : chunks * cryptoChunkBytes / cryptoChunkBytes = chunks :=
      Nat.mul_div_cancel _ (by decide)
    have hMod : chunks % 2 ^ 32 = chunks := Nat.mod_eq_of_lt (by omega)
    rw [List.flatMap_cons, Work.ivs, Work.chunks, hDiv, hMod, hOthers, Nat.add_zero, Nat.sub_zero,
      List.range'_append_1]
    congr 1
    omega
  · exact hStart

/-- The dispatch loop gives out the counters from the first one on, as many as the
layout loop counted. -/
theorem dispatchAll_ivs (cap : Nat) (hCap : 0 < cap) (hBound : cap < 2 ^ 32)
    (regions : List Region) (counter : Nat)
    (hWhole : ∀ r ∈ regions, r.length % cryptoChunkBytes = 0) :
    (dispatchAll (cap * cryptoChunkBytes) regions counter).flatMap (·.ivs 0) =
      List.range' counter (regions.map (·.length / cryptoChunkBytes)).sum := by
  induction regions generalizing counter with
  | nil => rfl
  | cons r rest ih =>
      have hLength : r.length = r.length / cryptoChunkBytes * cryptoChunkBytes := by
        have hDiv := Nat.div_add_mod r.length cryptoChunkBytes
        have hMod := hWhole r List.mem_cons_self
        rw [Nat.mul_comm]
        omega
      have hChunks := dispatch_chunks cap hCap r _ counter 0 hLength (Nat.zero_le _)
      have hIvs := dispatch_ivs cap hCap hBound r _ counter 0 hLength (Nat.zero_le _)
      rw [Nat.zero_mul, Nat.sub_zero] at hChunks hIvs
      rw [dispatchAll]
      simp only [hChunks]
      rw [List.flatMap_append, hIvs, ih _ fun r' h => hWhole r' (List.mem_cons_of_mem r h),
        List.range'_append_1, List.map_cons, List.sum_cons]

theorem Request.regions_whole {q : Request} (h : q.valid = true) :
    ∀ r ∈ q.regions, r.length % cryptoChunkBytes = 0 := by
  cases q with
  | run allocs =>
      simp only [Request.valid, Bool.and_eq_true, List.all_eq_true, decide_eq_true_eq] at h
      intro r hr
      obtain ⟨d, hd, rfl⟩ := List.mem_map.mp hr
      obtain ⟨e, he, -, hLength, -⟩ := baseDescs_mem hd
      rw [descRegion, hLength]
      exact h.2 e he
  | delta ranges =>
      simp only [Request.valid, Bool.and_eq_true, List.all_eq_true, decide_eq_true_eq] at h
      intro r hr
      obtain ⟨b, hb, rfl⟩ := List.mem_map.mp hr
      obtain ⟨e, he, -, hLength⟩ := deltaBlocks_mem hb
      rw [blockRegion, hLength]
      exact (h.2 e he).1.2

theorem Request.items_ivs {q : Request} (h : q.valid = true) (base : Nat) :
    (q.items base).flatMap (·.ivs 0) = List.range' base q.totalChunks := by
  refine dispatchAll_ivs q.slotChunks ?_ ?_ q.regions base (Request.regions_whole h)
  · cases q with
    | run _ => exact (by decide : 0 < chunkBytes / cryptoChunkBytes)
    | delta _ => exact (by decide : 0 < deltaChunkBytes / cryptoChunkBytes)
  · cases q with
    | run _ => exact (by decide : chunkBytes / cryptoChunkBytes < 2 ^ 32)
    | delta _ => exact (by decide : deltaChunkBytes / cryptoChunkBytes < 2 ^ 32)

end Items

section Steps

/-- A chunk that is encrypted moves its counter from the pending ones to the used ones. -/
theorem ivs_succ {w : Work} {page : Nat} (h : page < w.chunks) :
    w.ivs page = (w.baseIv + page) :: w.ivs (page + 1) := by
  have hCount : w.chunks - page = (w.chunks - (page + 1)) + 1 := by omega
  rw [Work.ivs, hCount, List.range'_succ]
  rfl

theorem active_split {active : List (Work × Nat)} {i : Nat} {p : Work × Nat}
    (h : active[i]? = some p) :
    active = active.take i ++ p :: active.drop (i + 1) := by
  obtain ⟨hLength, rfl⟩ := List.getElem?_eq_some_iff.mp h
  rw [List.getElem_cons_drop, List.take_append_drop]

/-- No step of a call adds a counter. -/
theorem callStep_subperm {call after : IvCall} {label : IvLabel}
    (hStep : callStep call label = some after) (hSmall : ∀ x ∈ call.pending, x < 2 ^ 64) :
    after.range = call.range ∧
      (after.used ++ after.pending).Subperm (call.used ++ call.pending) := by
  cases label with
  | start c request genOk fileOk => cases hStep
  | reserve c => cases hStep
  | launch c =>
      simp only [callStep] at hStep
      split at hStep
      · cases hStep
      · rename_i w rest hTodo
        cases hStep
        refine ⟨rfl, List.Perm.subperm (List.Perm.append_left _ ?_)⟩
        rw [IvCall.pending, IvCall.pending, hTodo, List.flatMap_cons, List.flatMap_append,
          List.flatMap_singleton]
        exact List.Perm.append_right _ (by
          rw [← List.append_assoc, List.append_assoc (w.ivs 0)]
          exact List.perm_append_comm)
  | stop c =>
      cases hStep
      refine ⟨rfl, List.Sublist.subperm (List.Sublist.append_left ?_ _)⟩
      exact List.Sublist.append_right (List.Sublist.append_right (List.nil_sublist _) _) _
  | take c =>
      simp only [callStep] at hStep
      split at hStep
      · cases hStep
      · rename_i w rest hQueue
        split at hStep
        · cases hStep
          refine ⟨rfl, List.Sublist.subperm (List.Sublist.append_left ?_ _)⟩
          rw [IvCall.pending, IvCall.pending, hQueue, List.flatMap_cons]
          exact List.Sublist.append_right
            (List.Sublist.append_left (List.sublist_append_right _ _) _) _
        · cases hStep
          refine ⟨rfl, List.Perm.subperm (List.Perm.append_left _ ?_)⟩
          rw [IvCall.pending, IvCall.pending, hQueue, List.flatMap_cons, List.flatMap_append,
            List.flatMap_singleton, List.append_assoc, List.append_assoc, List.append_assoc]
          refine List.Perm.append_left _ ?_
          rw [← List.append_assoc]
          exact List.perm_append_comm
  | encrypt c i =>
      simp only [callStep] at hStep
      split at hStep
      · cases hStep
      · rename_i w page hActive
        split at hStep
        · rename_i hPage
          cases hStep
          have hSplit := active_split hActive
          obtain ⟨hLength, -⟩ := List.getElem?_eq_some_iff.mp hActive
          have hMember : w.baseIv + page ∈ call.pending := by
            refine List.mem_append_right _ (List.mem_flatMap.mpr ⟨_, List.mem_of_getElem? hActive, ?_⟩)
            rw [ivs_succ hPage]
            exact List.mem_cons_self
          refine ⟨rfl, List.Perm.subperm ?_⟩
          rw [Nat.mod_eq_of_lt (hSmall _ hMember), List.append_assoc]
          refine List.Perm.append_left _ ?_
          rw [IvCall.pending, IvCall.pending]
          dsimp only
          rw [List.set_eq_take_append_cons_drop, if_pos hLength]
          conv_rhs => rw [hSplit]
          rw [List.flatMap_append, List.flatMap_cons, List.flatMap_append, List.flatMap_cons,
            ivs_succ hPage]
          simp only [List.cons_append, List.nil_append, ← List.append_assoc]
          rw [List.append_assoc _ (w.ivs (page + 1))]
          exact List.perm_middle.symm
        · cases hStep
  | retire c i =>
      cases hStep
      refine ⟨rfl, List.Sublist.subperm (List.Sublist.append_left ?_ _)⟩
      exact List.Sublist.append_left ((List.eraseIdx_sublist _ _).flatMap _) _

end Steps

/-- What holds of one call: before its reservation it has nothing to do, afterwards
its counters are some of those it reserved. -/
def IvCall.Within (reserved : Nat) (call : IvCall) : Prop :=
  match call.range with
  | none => call.used ++ call.pending = []
  | some (b, t) => b + t ≤ reserved ∧ (call.used ++ call.pending).Subperm (List.range' b t)

/-- The counter is the number of chunks reserved, and the reserved ranges lie behind
each other. -/
structure IvInvariant (s : IvState) : Prop where
  base : s.ivBase = s.reserved
  within : ∀ c k, s.calls c = some k → k.Within s.reserved
  disjoint : ∀ c d k l b t b' t', c ≠ d → s.calls c = some k → s.calls d = some l →
    k.range = some (b, t) → l.range = some (b', t') → b + t ≤ b' ∨ b' + t' ≤ b

namespace IvCall

theorem Within.mem {reserved : Nat} {call : IvCall} (h : call.Within reserved) {x : Nat}
    (hx : x ∈ call.used ++ call.pending) :
    ∃ b t, call.range = some (b, t) ∧ b + t ≤ reserved ∧ b ≤ x ∧ x < b + t := by
  unfold Within at h
  split at h
  · rw [h] at hx
    cases hx
  · rename_i b t hRange
    have hIn := List.mem_range'_1.mp (h.2.subset hx)
    exact ⟨b, t, hRange, h.1, hIn.1, hIn.2⟩

theorem Within.mono {reserved reserved' : Nat} {call : IvCall} (h : call.Within reserved)
    (hLe : reserved ≤ reserved') : call.Within reserved' := by
  unfold Within at h ⊢
  split
  · rename_i hRange
    rw [hRange] at h
    exact h
  · rename_i b t hRange
    rw [hRange] at h
    exact ⟨Nat.le_trans h.1 hLe, h.2⟩

theorem Within.nodup {reserved : Nat} {call : IvCall} (h : call.Within reserved) :
    (call.used ++ call.pending).Nodup := by
  unfold Within at h
  split at h
  · rw [h]
    exact List.nodup_nil
  · obtain ⟨counters, hPerm, hSub⟩ := h.2
    exact hPerm.nodup_iff.mp (hSub.nodup List.nodup_range')

theorem Within.callStep {reserved : Nat} {call after : IvCall} {label : IvLabel}
    (h : call.Within reserved) (hBound : reserved < 2 ^ 64)
    (hStep : callStep call label = some after) :
    after.range = call.range ∧ after.Within reserved := by
  obtain ⟨hRange, hSub⟩ := callStep_subperm hStep fun x hx => by
    obtain ⟨b, t, -, hEnd, -, hLt⟩ := h.mem (List.mem_append_right _ hx)
    omega
  refine ⟨hRange, ?_⟩
  unfold Within at h ⊢
  rw [hRange]
  split
  · rename_i hNone
    rw [hNone] at h
    rw [h] at hSub
    exact List.subperm_nil.mp hSub
  · rename_i b t hSome
    rw [hSome] at h
    exact ⟨h.1, hSub.trans h.2⟩

end IvCall

/-- A call may change as long as it keeps its range. -/
theorem IvInvariant.set {s : IvState} (h : IvInvariant s) {c : Nat} {after : IvCall}
    (hRange : ∀ r, after.range = some r → ∃ call, s.calls c = some call ∧ call.range = some r)
    (hWithin : after.Within s.reserved) : IvInvariant (s.set c after) where
  base := h.base
  within := by
    intro d k hk
    simp only [IvState.set] at hk
    split at hk
    · cases hk
      exact hWithin
    · exact h.within d k hk
  disjoint := by
    intro d e k l b t b' t' hNe hk hl hb hb'
    simp only [IvState.set] at hk hl
    split at hk
    · rename_i hd
      subst hd
      cases hk
      rw [if_neg (Ne.symm hNe)] at hl
      obtain ⟨call, hCall, hOld⟩ := hRange _ hb
      exact h.disjoint d e call l b t b' t' hNe hCall hl hOld hb'
    · split at hl
      · rename_i he
        subst he
        cases hl
        obtain ⟨call, hCall, hOld⟩ := hRange _ hb'
        exact h.disjoint d e k call b t b' t' hNe hk hCall hb hOld
      · exact h.disjoint d e k l b t b' t' hNe hk hl hb hb'

/-- The next range starts where the last one ends. -/
theorem IvInvariant.reserveCall {s : IvState} (h : IvInvariant s) {c : Nat} {call : IvCall}
    (hCall : s.calls c = some call) (hNone : call.range = none)
    (hValid : call.request.valid = true)
    (hBound : s.reserved + call.request.totalChunks < 2 ^ 64) :
    IvInvariant (reserveCall s c call) where
  base := by
    change (s.ivBase + call.request.totalChunks) % 2 ^ 64 = s.reserved + call.request.totalChunks
    rw [h.base, Nat.mod_eq_of_lt hBound]
  within := by
    intro d k hk
    simp only [Baseline.reserveCall, IvState.set] at hk ⊢
    split at hk
    · cases hk
      have hIdle := h.within c call hCall
      rw [IvCall.Within, hNone] at hIdle
      obtain ⟨hUsed, hPending⟩ := List.append_eq_nil_iff.mp hIdle
      rw [IvCall.pending, List.append_assoc] at hPending
      obtain ⟨-, hRest⟩ := List.append_eq_nil_iff.mp hPending
      refine ⟨by rw [h.base], ?_⟩
      rw [IvCall.pending, List.append_assoc]
      dsimp only
      rw [hUsed, hRest, List.append_nil, List.nil_append, Request.items_ivs hValid]
    · exact (h.within d k hk).mono (Nat.le_add_right _ _)
  disjoint := by
    have hBehind : ∀ d k b t, s.calls d = some k → k.range = some (b, t) → b + t ≤ s.ivBase := by
      intro d k b t hk hb
      have hIn := h.within d k hk
      rw [IvCall.Within, hb] at hIn
      rw [h.base]
      exact hIn.1
    intro d e k l b t b' t' hNe hk hl hb hb'
    simp only [Baseline.reserveCall, IvState.set] at hk hl
    split at hk
    · rename_i hd
      subst hd
      cases hk
      cases hb
      rw [if_neg (Ne.symm hNe)] at hl
      exact .inr (hBehind e l b' t' hl hb')
    · split at hl
      · cases hl
        cases hb'
        exact .inl (hBehind d k b t hk hb)
      · exact h.disjoint d e k l b t b' t' hNe hk hl hb hb'

theorem IvInvariant.startCall {s : IvState} (h : IvInvariant s) {c : Nat} {request : Request}
    {genOk fileOk : Bool} : IvInvariant (startCall s c request genOk fileOk) := by
  have hReady : ∀ ready, IvInvariant { s with k3Ready := ready } := fun _ =>
    ⟨h.base, h.within, h.disjoint⟩
  have hFresh : (IvCall.fresh request s.ivBase).Within s.reserved := rfl
  cases request with
  | run allocs =>
      simp only [Baseline.startCall]
      split
      · exact (hReady _).set (fun r hr => by cases hr) hFresh
      · exact hReady _
  | delta ranges =>
      simp only [Baseline.startCall]
      split
      · exact h.set (fun r hr => by cases hr) hFresh
      · exact h

theorem startCall_reserved (s : IvState) (c : Nat) (request : Request) (genOk fileOk : Bool) :
    (startCall s c request genOk fileOk).reserved = s.reserved := by
  cases request <;> simp only [startCall] <;> split <;> rfl

/-- Everything a step can do. -/
theorem ivNext_cases {s t : IvState} {label : IvLabel} (hStep : ivNext s label = some t) :
    (∃ c request genOk fileOk, s.calls c = none ∧ t = startCall s c request genOk fileOk) ∨
    (∃ c call, s.calls c = some call ∧ call.range = none ∧ call.request.valid = true ∧
      t = reserveCall s c call) ∨
    (∃ c call after n, s.calls c = some call ∧ callStep call label = some after ∧
      t = { s with encrypted := n }.set c after) := by
  have hOther : (s.calls label.call).bind (fun call => (callStep call label).map
      (s.set label.call)) = some t → ∃ c call after n, s.calls c = some call ∧
        callStep call label = some after ∧ t = { s with encrypted := n }.set c after := by
    intro h
    rw [Option.bind_eq_some_iff] at h
    obtain ⟨call, hCall, h⟩ := h
    rw [Option.map_eq_some_iff] at h
    obtain ⟨after, hAfter, rfl⟩ := h
    exact ⟨label.call, call, after, s.encrypted, hCall, hAfter, rfl⟩
  cases label with
  | start c request genOk fileOk =>
      simp only [ivNext] at hStep
      split at hStep
      · rename_i hNone
        cases hStep
        exact .inl ⟨c, request, genOk, fileOk, hNone, rfl⟩
      · cases hStep
  | reserve c =>
      simp only [ivNext] at hStep
      split at hStep
      · cases hStep
      · rename_i call hCall
        split at hStep
        · rename_i hReady
          cases hStep
          exact .inr (.inl ⟨c, call, hCall, hReady.1, hReady.2, rfl⟩)
        · cases hStep
  | encrypt c i =>
      simp only [ivNext, Option.bind_eq_some_iff, Option.map_eq_some_iff] at hStep
      obtain ⟨call, hCall, after, hAfter, rfl⟩ := hStep
      exact .inr (.inr ⟨c, call, after, s.encrypted + 1, hCall, hAfter, rfl⟩)
  | launch c => exact .inr (.inr (hOther hStep))
  | stop c => exact .inr (.inr (hOther hStep))
  | take c => exact .inr (.inr (hOther hStep))
  | retire c i => exact .inr (.inr (hOther hStep))

/-- A reservation that wraps the counter breaks the invariant, so it is kept only as long
as the reserved chunks stay below the wrap. -/
theorem ivInvariant_step {s t : IvState} {label : IvLabel}
    (hInv : s.reserved < 2 ^ 64 → IvInvariant s) (hStep : ivNext s label = some t)
    (hBound : t.reserved < 2 ^ 64) : IvInvariant t := by
  rcases ivNext_cases hStep with ⟨c, request, genOk, fileOk, -, rfl⟩ |
    ⟨c, call, hCall, hNone, hValid, rfl⟩ | ⟨c, call, after, n, hCall, hAfter, rfl⟩
  · rw [startCall_reserved] at hBound
    exact (hInv hBound).startCall
  · have hSum : s.reserved + call.request.totalChunks < 2 ^ 64 := hBound
    exact (hInv (by omega)).reserveCall hCall hNone hValid hSum
  · have hBefore : IvInvariant { s with encrypted := n } :=
      ⟨(hInv hBound).base, (hInv hBound).within, (hInv hBound).disjoint⟩
    obtain ⟨hRange, hWithin⟩ := (hBefore.within c call hCall).callStep hBound hAfter
    exact hBefore.set (fun r hr => ⟨call, hCall, hRange ▸ hr⟩) hWithin

theorem IvInvariant.initial : IvInvariant .initial where
  base := rfl
  within := fun c k hk => by cases hk
  disjoint := fun c d k l b t b' t' _ hk => by cases hk

theorem IvInvariant.distinct {s : IvState} (h : IvInvariant s) : IvsDistinct s where
  disjoint := h.disjoint
  once := fun c k hk => (h.within c k hk).nodup
  inside := by
    intro c k hk x hx
    obtain ⟨b, t, hRange, -, hLow, hHigh⟩ := (h.within c k hk).mem hx
    exact ⟨b, t, hRange, hLow, hHigh⟩
  unique := by
    intro c d k l hNe hk hl x hx hx'
    obtain ⟨b, t, hRange, -, hLow, hHigh⟩ := (h.within c k hk).mem (List.mem_append_left _ hx)
    obtain ⟨b', t', hRange', -, hLow', hHigh'⟩ := (h.within d l hl).mem (List.mem_append_left _ hx')
    have hApart := h.disjoint c d k l b t b' t' hNe hk hl hRange hRange'
    omega

/-- Over every interleaving of any number of calls: the ranges are disjoint, and no two
chunks are encrypted with the same counter, as long as fewer than 2^64 chunks are
reserved. -/
theorem ivs_distinct (labels : List IvLabel) (s : IvState)
    (hRun : execute ivNext .initial labels = some s) (hBound : s.reserved < 2 ^ 64) :
    IvsDistinct s := by
  have hAlways : Along ivNext (fun _ _ => True) .initial labels :=
    along_of_forall (fun _ _ => trivial) IvState.initial
  have hStart : (fun s : IvState => s.reserved < 2 ^ 64 → IvInvariant s)
      IvState.initial := fun _ => .initial
  exact (invariant_along (fun _ _ _ _ hs hStep => ivInvariant_step hs hStep) labels .initial s
    hStart hAlways hRun hBound).distinct

theorem IvState.set_calls (s : IvState) (c : Nat) (k : IvCall) : (s.set c k).calls c = some k :=
  if_pos rfl

theorem IvState.set_set (s : IvState) (c : Nat) (k l : IvCall) (n : Nat) :
    { s.set c k with encrypted := n }.set c l = { s with encrypted := n }.set c l := by
  simp only [IvState.set]
  congr 1
  funext d
  split <;> rfl

/-- A call for one allocation. -/
def allocRun (size : Nat) (h : size ≤ 2 ^ 52) : Request := .run [⟨0, size, false, zero_lt_vaLimit, h⟩]

/-- A call up to its reservation. -/
def reservation (c size : Nat) (h : size ≤ 2 ^ 52) : List IvLabel :=
  [.start c (allocRun size h) true true, .reserve c]

theorem reservation_execute (s : IvState) (c size : Nat) (h : size ≤ 2 ^ 52)
    (hFree : s.calls c = none) (hWhole : size % cryptoChunkBytes = 0) :
    ∃ t, execute ivNext s (reservation c size h) = some t ∧ t.k3Ready = true ∧
      t.ivBase = (s.ivBase + size / cryptoChunkBytes) % 2 ^ 64 ∧
      t.reserved = s.reserved + size / cryptoChunkBytes ∧ t.encrypted = s.encrypted ∧
      t.calls c = some { IvCall.fresh (allocRun size h) s.ivBase with
        range := some (s.ivBase, size / cryptoChunkBytes)
        todo := (allocRun size h).items s.ivBase } ∧
      ∀ d, d ≠ c → t.calls d = s.calls d := by
  have hValid : (allocRun size h).valid = true := by
    simp only [allocRun, Request.valid, Request.live, List.filter_cons, Bool.not_false, if_true,
      List.filter_nil, List.all_cons, List.all_nil, hWhole, decide_true, Bool.and_true]
    exact decide_eq_true (List.cons_ne_nil _ _)
  have hStart : ivNext s (.start c (allocRun size h) true true) =
      some ({ s with k3Ready := true }.set c (.fresh (allocRun size h) s.ivBase)) := by
    simp only [ivNext, if_pos hFree, startCall, allocRun, Bool.or_true, Bool.and_self, if_true]
  refine ⟨reserveCall ({ s with k3Ready := true }.set c (.fresh (allocRun size h) s.ivBase)) c
    (.fresh (allocRun size h) s.ivBase), ?_, rfl, rfl, rfl, rfl, ?_, ?_⟩
  · rw [reservation, execute_cons, hStart, Option.bind_some, execute_cons]
    simp only [ivNext, IvState.set, if_true]
    rw [if_pos ⟨rfl, hValid⟩]
    rfl
  · simp only [reserveCall, IvState.set, if_true]
    rfl
  · intro d hd
    simp only [reserveCall, IvState.set, if_neg hd]

theorem oneChunk_items (base : Nat) :
    ∃ w, (allocRun cryptoChunkBytes (by decide)).items base = [w] ∧ w.bytes = cryptoChunkBytes ∧
      w.baseIv = base := by
  have hItems : ∀ r : Region, r.length = cryptoChunkBytes →
      ∃ w, dispatchAll chunkBytes [r] base = [w] ∧ w.bytes = cryptoChunkBytes ∧
        w.baseIv = base := by
    intro r hLength
    have hSize : thisChunk chunkBytes (cryptoChunkBytes - 0) = cryptoChunkBytes := by decide
    rw [dispatchAll, dispatch, hLength, if_pos (by decide), hSize, dispatch, hLength,
      if_neg (by decide)]
    exact ⟨_, rfl, rfl, rfl⟩
  exact hItems _ rfl

/-- A call that encrypts one chunk. -/
def oneChunkCall (c : Nat) : List IvLabel :=
  reservation c cryptoChunkBytes (by decide) ++ [.launch c, .take c, .encrypt c 0]

theorem oneChunkCall_execute (s : IvState) (c : Nat) (hFree : s.calls c = none) :
    ∃ t k, execute ivNext s (oneChunkCall c) = some t ∧
      t.ivBase = (s.ivBase + 1) % 2 ^ 64 ∧ t.reserved = s.reserved + 1 ∧
      t.encrypted = s.encrypted + 1 ∧ t.calls c = some k ∧ k.used = [s.ivBase % 2 ^ 64] ∧
      ∀ d, d ≠ c → t.calls d = s.calls d := by
  obtain ⟨w, hItems, hBytes, hIv⟩ := oneChunk_items s.ivBase
  obtain ⟨t, hRun, -, hBase, hReserved, hEncrypted, hCall, hOther⟩ :=
    reservation_execute s c cryptoChunkBytes (by decide) hFree (by decide)
  have hOne : cryptoChunkBytes / cryptoChunkBytes = 1 := by decide
  have hChunks : w.chunks = 1 := by
    rw [Work.chunks, hBytes]
    decide
  have hWhole : ¬ (w.bytes < cryptoChunkBytes ∨ w.bytes % cryptoChunkBytes ≠ 0) := by
    rw [hBytes]
    decide
  rw [hOne] at hBase hReserved hCall
  rw [hItems] at hCall
  let k : IvCall := ⟨allocRun cryptoChunkBytes (by decide), s.ivBase, some (s.ivBase, 1), [], [],
    [(w, 1)], [(s.ivBase + 0) % 2 ^ 64]⟩
  have hLaunch : ivNext t (.launch c) = some (t.set c { k with
      queue := [w], active := [], used := [] }) := by
    simp only [ivNext, IvLabel.call, hCall, Option.bind_some, callStep, Option.map_some]
    rfl
  have hTake : ivNext (t.set c { k with queue := [w], active := [], used := [] }) (.take c) =
      some (t.set c { k with active := [(w, 0)], used := [] }) := by
    simp only [ivNext, IvLabel.call, IvState.set_calls, Option.bind_some, callStep, if_neg hWhole,
      Option.map_some]
    exact congrArg some (IvState.set_set t c _ _ t.encrypted)
  have hEncrypt : ivNext (t.set c { k with active := [(w, 0)], used := [] }) (.encrypt c 0) =
      some ({ t with encrypted := t.encrypted + 1 }.set c k) := by
    simp only [ivNext, IvState.set_calls, Option.bind_some, callStep, List.getElem?_cons_zero,
      hChunks, Nat.zero_lt_one, if_true, hIv, Option.map_some, IvState.set_set]
    rfl
  refine ⟨{ t with encrypted := t.encrypted + 1 }.set c k, k, ?_, hBase, hReserved,
    congrArg (· + 1) hEncrypted, if_pos rfl, rfl, ?_⟩
  · rw [oneChunkCall, execute_append, hRun, Option.bind_some, execute_cons, hLaunch,
      Option.bind_some, execute_cons, hTake, Option.bind_some, execute_cons, hEncrypt]
    rfl
  · intro d hd
    rw [← hOther d hd]
    exact if_neg hd

/-- Two calls one after the other. -/
theorem twoCalls_distinct : ∃ s, execute ivNext .initial (oneChunkCall 0 ++ oneChunkCall 1) = some s ∧
    s.reserved < 2 ^ 64 ∧ s.encrypted = 2 ∧ IvsDistinct s := by
  obtain ⟨s, _, hFirst, -, hReserved, hEncrypted, -, -, hOther⟩ :=
    oneChunkCall_execute .initial 0 rfl
  obtain ⟨t, _, hSecond, -, hReserved', hEncrypted', -⟩ :=
    oneChunkCall_execute s 1 (hOther 1 (by decide))
  have hRun : execute ivNext .initial (oneChunkCall 0 ++ oneChunkCall 1) = some t := by
    rw [execute_append, hFirst, Option.bind_some, hSecond]
  have hBound : t.reserved < 2 ^ 64 := by
    rw [hReserved', hReserved]
    decide
  refine ⟨t, hRun, hBound, ?_, ivs_distinct _ t hRun hBound⟩
  rw [hEncrypted', hEncrypted]
  rfl

/-- Calls that fail behind their reservation. -/
def failingCalls (size : Nat) (h : size ≤ 2 ^ 52) : Nat → Nat → List IvLabel
  | _, 0 => []
  | first, count + 1 =>
      reservation first size h ++ .stop first :: failingCalls size h (first + 1) count

theorem failingCalls_execute (size : Nat) (h : size ≤ 2 ^ 52)
    (hWhole : size % cryptoChunkBytes = 0) (count first : Nat) (s : IvState)
    (hFree : ∀ d, first ≤ d → s.calls d = none) (hBase : s.ivBase < 2 ^ 64) :
    ∃ t, execute ivNext s (failingCalls size h first count) = some t ∧
      t.ivBase = (s.ivBase + count * (size / cryptoChunkBytes)) % 2 ^ 64 ∧
      t.encrypted = s.encrypted ∧ (∀ d, d < first → t.calls d = s.calls d) ∧
      ∀ d, first + count ≤ d → t.calls d = none := by
  induction count generalizing first s with
  | zero => exact ⟨s, rfl, by omega, rfl, fun _ _ => rfl, hFree⟩
  | succ count ih =>
      obtain ⟨r, hRun, -, hBase', -, hEncrypted, hCall, hOther⟩ :=
        reservation_execute s first size h (hFree first (Nat.le_refl _)) hWhole
      have hStop : ∃ k, ivNext r (.stop first) = some (r.set first k) := by
        simp only [ivNext, IvLabel.call, hCall, Option.bind_some, callStep, Option.map_some]
        exact ⟨_, rfl⟩
      obtain ⟨k, hStop⟩ := hStop
      obtain ⟨t, hRest, hBase'', hEncrypted', hBefore, hBehind⟩ := ih (first + 1) (r.set first k)
        (fun d hd => (if_neg (by omega)).trans ((hOther d (by omega)).trans (hFree d (by omega))))
        (by rw [show (r.set first k).ivBase = r.ivBase from rfl, hBase']; omega)
      refine ⟨t, ?_, ?_, hEncrypted'.trans hEncrypted, ?_, fun d hd => hBehind d (by omega)⟩
      · rw [failingCalls, execute_append, hRun, Option.bind_some, execute_cons, hStop,
          Option.bind_some, hRest]
      · rw [hBase'', show (r.set first k).ivBase = r.ivBase from rfl, hBase', Nat.mod_add_mod,
          Nat.add_mul, Nat.one_mul]
        congr 1
        omega
      · intro d hd
        rw [hBefore d (by omega), ← hOther d (by omega)]
        exact if_neg (by omega)

/-- Failing calls reserve counters without encrypting until the counter wraps: with
two chunks encrypted both have counter 0. -/
theorem not_ivs_distinct_encrypted :
    ¬ ∀ (labels : List IvLabel) (s : IvState), execute ivNext .initial labels = some s →
      s.encrypted < 2 ^ 64 → IvsDistinct s := by
  intro hAll
  obtain ⟨a, k, hFirst, hBase, -, hEncrypted, hCall, hUsed, hOther⟩ :=
    oneChunkCall_execute .initial 0 rfl
  have hBase : a.ivBase = 1 := hBase
  obtain ⟨b, hOdd, hBaseOdd, hEncryptedOdd, hBeforeOdd, hBehindOdd⟩ :=
    failingCalls_execute (2 ^ 52 - 2 ^ 21) (by decide) (by decide) 1 1 a
      (fun d hd => hOther d (by omega)) (by rw [hBase]; decide)
  have hBaseOdd : b.ivBase = 2 ^ 31 := hBaseOdd.trans (by rw [hBase]; decide)
  obtain ⟨e, hFill, hBaseFill, hEncryptedFill, hBeforeFill, hBehindFill⟩ :=
    failingCalls_execute (2 ^ 52) (by decide) (by decide) (2 ^ 33 - 1) 2 b hBehindOdd
      (by rw [hBaseOdd]; decide)
  have hBaseFill : e.ivBase = 0 := hBaseFill.trans (by rw [hBaseOdd]; decide)
  obtain ⟨f, l, hLast, -, -, hEncryptedLast, hCallLast, hUsedLast, hOtherLast⟩ :=
    oneChunkCall_execute e (2 + (2 ^ 33 - 1)) (hBehindFill _ (Nat.le_refl _))
  have hRun : execute ivNext .initial (oneChunkCall 0 ++ (failingCalls (2 ^ 52 - 2 ^ 21) (by decide)
      1 1 ++ (failingCalls (2 ^ 52) (by decide) 2 (2 ^ 33 - 1) ++
        oneChunkCall (2 + (2 ^ 33 - 1))))) = some f := by
    rw [execute_append, hFirst, Option.bind_some, execute_append, hOdd, Option.bind_some,
      execute_append, hFill, Option.bind_some, hLast]
  have hFew : f.encrypted < 2 ^ 64 := by
    rw [hEncryptedLast, hEncryptedFill, hEncryptedOdd, hEncrypted]
    decide
  have hCallFirst : f.calls 0 = some k := by
    rw [hOtherLast 0 (by decide), hBeforeFill 0 (by decide), hBeforeOdd 0 (by decide), hCall]
  have hDistinct := (hAll _ f hRun hFew).unique 0 _ k l (by decide) hCallFirst hCallLast 0
  rw [hUsed, hUsedLast, hBaseFill] at hDistinct
  exact hDistinct (by decide) (by decide)

end FlashCkpt.Baseline
