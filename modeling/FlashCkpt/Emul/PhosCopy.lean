import FlashCkpt.Emul.CopyPipeline
import FlashCkpt.Emul.Recopy

/-! What a round of PHOS leaves when something in it fails. Phase 1 clears the flags of all
buffers. Phase 2 copies them to the base image beside the application, Phase 4 those that were
marked since to the delta image, and neither looks at what `run_pingpong` returns. -/
namespace FlashCkpt.Emul.Phos

open Transition
open ByteImage (Image Write writeAll)

/-- What one pass gets: its staging buffers, its list of chunks, the stream, the events and the
consumer; and how each of its copies ends. -/
structure PassFaults where
  staging : Bool
  chunks : Bool
  stream : Bool
  events : Bool
  consumer : Bool
  copy : Nat → CopyEnd

def PassFaults.ready (f : PassFaults) : Bool :=
  f.staging && f.chunks && f.stream && f.events && f.consumer

/-- The loop of `run_pingpong`, which ends with the first copy that is refused: the chunks with
their numbers that the consumer gets. -/
def launched (copy : Nat → CopyEnd) : (i : Nat) → List Chunk → List (Chunk × Nat)
  | _, [] => []
  | i, c :: rest => if copy i = .refused then [] else (c, i) :: launched copy (i + 1) rest

/-- The chunks that a pass hands to the pipeline. -/
def PassFaults.handed (f : PassFaults) (chunks : List Chunk) : List (Chunk × Nat) :=
  if f.ready then launched f.copy 0 chunks else []

/-- Each chunk is copied to the start of a staging buffer, and written to the image if there
is one. -/
def pipe (target : Bool) (copy : Nat → CopyEnd) (device : Nat → Image) :
    PingPong.Pipe (Chunk × Nat) Image Image where
  fill c buffer := if copy c.2 = .done then
    ByteImage.write buffer ⟨0, ByteImage.read (device c.2) c.1.va c.1.size⟩ else buffer
  drain c buffer image := if target then
    ByteImage.write image ⟨c.1.imgOff, ByteImage.read buffer 0 c.1.size⟩ else image

def Chunk.move (c : Chunk) : Move := (c.toRegion, c.imgOff)

def PassFaults.moves (f : PassFaults) (chunks : List Chunk) : List Move :=
  (f.handed chunks).map fun c => c.1.move

/-- No copy is lost among those that are made. -/
def PassFaults.NoLost (f : PassFaults) (chunks : List Chunk) : Prop :=
  f.ready = true → ∀ j < chunks.length, (∀ k < j, f.copy k ≠ .refused) → f.copy j ≠ .lost

/-- What the application does while a round is under way: its frees wait. -/
inductive Touch where
  | alloc (vmm : Bool) (va size : Nat)
  | mark (addr : Nat)
  deriving DecidableEq, Repr

def touch (image : Option Nat) (s : State PhosFlags) : Touch → Option (State PhosFlags)
  | .alloc vmm va size => Emul.next phos image s (.alloc vmm va size)
  | .mark addr => some { s with table := markDirtyVa addr s.table }

/-- The hooked calls, the marks, and a round with what the application does before Phase 2
builds its chunks and before Phase 4 does. -/
inductive RoundOp where
  | call (c : Call)
  | mark (addr : Nat)
  | round (early late : List Touch)

/-- The faults of the two passes of a round. -/
structure RoundFaults where
  phase2 : PassFaults
  phase4 : PassFaults

def nextOp (images : Images) (s : State PhosFlags) : RoundOp → Option (State PhosFlags)
  | .call c => Emul.next phos images.base s c
  | .mark addr => some { s with table := markDirtyVa addr s.table }
  | .round early late =>
      execute (touch images.base) { s with table := clearDirty s.table } (early ++ late)

/-- The chunks of a pass for the snapshot that was taken of the table `t`. -/
def passChunks (images : Images) (t now : Table PhosFlags) (dirtyOnly : Bool) : List Chunk :=
  buildChunks now.allocs (snapshotLiveAllocs t.allocs) images.staging.bytes dirtyOnly

def Flagged (t : Table PhosFlags) (i : Nat) : Prop :=
  ∃ e, t.allocs[i]? = some e ∧ e.flags.dirtyThisRound = true

/-- Each byte of the buffer was delivered to its slot. -/
def Captured (moves : List Move) (copy : Nat → CopyEnd) (device : Nat → Image) (image : Image)
    (e : Alloc PhosFlags) : Prop :=
  ∃ off, e.imgOffset = some off ∧ ∀ k < e.size, Delivered moves copy device image (e.va + k) (off + k)

/-- The images of a pass and what the device and its buffers hold. -/
structure PassRun where
  device : Nat → Image
  staging : Bool → Image
  before : Image
  behind : Image

def PassRun.Ends (run : PassRun) (target : Bool) (f : PassFaults) (chunks : List Chunk) : Prop :=
  PingPong.Ends (pipe target f.copy run.device) (f.handed chunks) run.staging run.before run.behind

/-- The image was changed by bytes of this pass only. -/
def PassRun.Clean (run : PassRun) (f : PassFaults) (chunks : List Chunk) : Prop :=
  ∀ pos, run.behind pos = run.before pos ∨
    ∃ addr, Delivered (f.moves chunks) f.copy run.device run.behind addr pos

/-- The states in which Phase 2 and Phase 4 build their chunks. -/
structure Passes (images : Images) (s : State PhosFlags) (early late : List Touch)
    (s₁ s₂ : State PhosFlags) : Prop where
  early : execute (touch images.base) { s with table := clearDirty s.table } early = some s₁
  late : execute (touch images.base) s₁ late = some s₂

/-- Whatever the device, the buffers and the images hold: behind the round each buffer that was
dirty is marked or captured in one of the images, which have no other new bytes. -/
def SafeRound (images : Images) (s : State PhosFlags) (early late : List Touch) (f : RoundFaults) :
    Prop :=
  ∀ s₁ s₂, Passes images s early late s₁ s₂ → ∀ run₂ run₄ : PassRun,
    run₂.Ends images.base.isSome f.phase2 (passChunks images s.table s₁.table false) →
    run₄.Ends images.delta.isSome f.phase4 (passChunks images s.table s₂.table true) →
    (∀ i e, s.table.allocs[i]? = some e → e.alive = true → e.flags.dirtyThisRound = true →
      Flagged s₂.table i ∨
        Captured (f.phase2.moves (passChunks images s.table s₁.table false)) f.phase2.copy
          run₂.device run₂.behind e ∨
        Captured (f.phase4.moves (passChunks images s.table s₂.table true)) f.phase4.copy
          run₄.device run₄.behind e) ∧
    run₂.Clean f.phase2 (passChunks images s.table s₁.table false) ∧
    run₄.Clean f.phase4 (passChunks images s.table s₂.table true)

/-- No copy is lost in either pass, and a buffer that was dirty is marked again before Phase 4,
or has a slot to which Phase 2 makes all its copies, with none refused before. -/
structure CompleteAt (images : Images) (s : State PhosFlags) (f : RoundFaults)
    (s₁ s₂ : State PhosFlags) : Prop where
  buffers : ∀ i e, s.table.allocs[i]? = some e → e.alive = true → e.flags.dirtyThisRound = true →
    Flagged s₂.table i ∨ ∃ off, e.imgOffset = some off ∧ f.phase2.ready = true ∧
      ∀ j c, (passChunks images s.table s₁.table false)[j]? = some c →
        off ≤ c.imgOff → c.imgOff < off + e.size → ∀ k ≤ j, f.phase2.copy k ≠ .refused
  base : f.phase2.NoLost (passChunks images s.table s₁.table false)
  delta : images.delta ≠ none → f.phase4.NoLost (passChunks images s.table s₂.table true)

def CompleteRound (images : Images) (s : State PhosFlags) (early late : List Touch)
    (f : RoundFaults) : Prop :=
  ∀ s₁ s₂, Passes images s early late s₁ s₂ → CompleteAt images s f s₁ s₂

theorem launched_eq (copy : Nat → CopyEnd) (i : Nat) (chunks : List Chunk) :
    ∃ n ≤ chunks.length, launched copy i chunks = (chunks.take n).zipIdx i ∧
      (∀ k < n, copy (i + k) ≠ .refused) ∧ (n < chunks.length → copy (i + n) = .refused) := by
  induction chunks generalizing i with
  | nil => exact ⟨0, Nat.le_refl 0, rfl, fun k h => absurd h (Nat.not_lt_zero k), (absurd · (Nat.lt_irrefl 0))⟩
  | cons c rest ih =>
      rw [launched]
      by_cases hRefused : copy i = .refused
      · exact ⟨0, Nat.zero_le _, by rw [if_pos hRefused]; rfl,
          fun k h => absurd h (Nat.not_lt_zero k), fun _ => hRefused⟩
      · obtain ⟨n, hLe, hEq, hBefore, hAt⟩ := ih (i + 1)
        refine ⟨n + 1, Nat.succ_le_succ hLe, ?_, ?_, ?_⟩
        · rw [if_neg hRefused, hEq, List.take_succ_cons, List.zipIdx_cons]
        · intro k hk
          cases k with
          | zero => exact hRefused
          | succ k =>
              rw [show i + (k + 1) = i + 1 + k by omega]
              exact hBefore k (by omega)
        · intro hLt
          rw [show i + (n + 1) = i + 1 + n by omega]
          exact hAt (by simpa using hLt)

/-- The chunks that are handed over are the first ones, up to the first copy refused. -/
theorem handed_eq (f : PassFaults) (chunks : List Chunk) :
    ∃ n ≤ chunks.length, f.handed chunks = (chunks.take n).zipIdx ∧
      (f.ready = true → (∀ k < n, f.copy k ≠ .refused) ∧ (n < chunks.length → f.copy n = .refused)) ∧
      (f.ready = false → n = 0) := by
  rw [PassFaults.handed]
  cases hReady : f.ready with
  | false => exact ⟨0, Nat.zero_le _, rfl, (nomatch ·), fun _ => rfl⟩
  | true =>
      obtain ⟨n, hLe, hEq, hBefore, hAt⟩ := launched_eq f.copy 0 chunks
      simp only [Nat.zero_add] at hBefore hAt
      exact ⟨n, hLe, hEq, fun _ => ⟨hBefore, hAt⟩, (nomatch ·)⟩

/-- The chunks of a pass have places of their own in the image. -/
structure PlacedApart (chunks : List Chunk) : Prop where
  pos : ∀ c ∈ chunks, 0 < c.size
  apart : chunks.Pairwise fun a b => a.imgOff + a.size ≤ b.imgOff ∨ b.imgOff + b.size ≤ a.imgOff

theorem PlacedApart.eq_of_covers {chunks : List Chunk} (h : PlacedApart chunks) {j k : Nat}
    {c d : Chunk} (hc : chunks[j]? = some c) (hd : chunks[k]? = some d) {pos : Nat}
    (hcPos : c.imgOff ≤ pos ∧ pos < c.imgOff + c.size)
    (hdPos : d.imgOff ≤ pos ∧ pos < d.imgOff + d.size) : j = k := by
  obtain ⟨hj, rfl⟩ := List.getElem?_eq_some_iff.mp hc
  obtain ⟨hk, rfl⟩ := List.getElem?_eq_some_iff.mp hd
  have hApart := List.pairwise_iff_getElem.mp h.apart
  rcases Nat.lt_trichotomy j k with hLt | hEq | hGt
  · have := hApart j k hj hk hLt
    omega
  · exact hEq
  · have := hApart k j hk hj hGt
    omega

section Pass

variable {f : PassFaults} {chunks : List Chunk} {run : PassRun}

theorem moves_eq {n : Nat} (hHanded : f.handed chunks = (chunks.take n).zipIdx) :
    f.moves chunks = (chunks.take n).map Chunk.move := by
  rw [PassFaults.moves, hHanded]
  conv_rhs => rw [← List.zipIdx_map_fst 0 (chunks.take n), List.map_map]
  rfl

/-- A byte that was delivered to the place of a chunk was brought by the copy of the chunk. -/
theorem PlacedApart.delivered (h : PlacedApart chunks) {device : Nat → Image} {image : Image}
    {addr pos j : Nat} {c : Chunk} (hc : chunks[j]? = some c)
    (hPos : c.imgOff ≤ pos ∧ pos < c.imgOff + c.size)
    (hByte : Delivered (f.moves chunks) f.copy device image addr pos) :
    f.ready = true ∧ f.copy j = .done ∧ (∀ k ≤ j, f.copy k ≠ .refused) ∧
      addr = c.va + (pos - c.imgOff) ∧ image pos = device j addr := by
  obtain ⟨k, m, hk, hCopy, ⟨hLow, hHigh⟩, hPlace, hByte⟩ := hByte
  obtain ⟨n, _, hHanded, hReady, hIdle⟩ := handed_eq f chunks
  rw [moves_eq hHanded, List.getElem?_map, Option.map_eq_some_iff] at hk
  obtain ⟨d, hd, rfl⟩ := hk
  have hkn : k < n := by
    have := (List.getElem?_eq_some_iff.mp hd).1
    rw [List.length_take] at this
    omega
  rw [List.getElem?_take_of_lt hkn] at hd
  dsimp only [Chunk.move] at hLow hHigh hPlace
  have hSame : k = j := h.eq_of_covers hd hc (by omega) hPos
  subst hSame
  cases hd.symm.trans hc
  have hOn : f.ready = true := by
    by_contra hOff
    have := hIdle (by simpa using hOff)
    omega
  refine ⟨hOn, hCopy, fun i hi => (hReady hOn).1 i (by omega), by omega, hByte⟩

/-- Without a lost copy the pass carries out the moves of the chunks that it hands over. -/
theorem PassFaults.NoLost.done (h : f.NoLost chunks) :
    ∀ j < (f.moves chunks).length, f.copy j = .done := by
  intro j hj
  obtain ⟨n, hLe, hHanded, hReady, hIdle⟩ := handed_eq f chunks
  have hjn : j < n := by
    rw [PassFaults.moves, hHanded, List.length_map, List.length_zipIdx, List.length_take] at hj
    omega
  have hOn : f.ready = true := by
    by_contra hOff
    have := hIdle (by simpa using hOff)
    omega
  have hBefore := (hReady hOn).1
  have hLost := h hOn j (by omega) fun k hk => hBefore k (by omega)
  have hRefused := hBefore j hjn
  cases hCopy : f.copy j with
  | done => rfl
  | refused => exact (hRefused hCopy).elim
  | lost => exact (hLost hCopy).elim

theorem PassRun.Ends.of_noLost (hEnds : run.Ends true f chunks) (h : f.NoLost chunks) :
    run.behind = writeAll run.before ((f.moves chunks).zipIdx.map (Move.write run.device)) := by
  obtain ⟨n, _, hHanded, _⟩ := handed_eq f chunks
  have hDone := h.done
  rw [PingPong.ends_iff.mp hEnds, PingPong.pass_eq_foldl (fun _ => True)
    (fun c image => ByteImage.write image
      ⟨c.1.imgOff, ByteImage.read (run.device c.2) c.1.va c.1.size⟩)
    (fun _ _ _ _ => trivial) ?_ (fun _ => trivial)]
  · have hMoves : (f.moves chunks).zipIdx.map (Move.write run.device) = (f.handed chunks).map
        fun c => (⟨c.1.imgOff, ByteImage.read (run.device c.2) c.1.va c.1.size⟩ : Write) := by
      rw [moves_eq hHanded, hHanded, List.zipIdx_map, List.map_map]
      rfl
    rw [hMoves, writeAll, List.foldl_map]
  · intro c hc buffer _ image
    have hCopy : f.copy c.2 = .done := by
      apply hDone
      rw [hHanded] at hc
      have hLt := (List.getElem?_eq_some_iff.mp (List.mem_zipIdx_iff_getElem?.mp hc)).1
      rwa [PassFaults.moves, hHanded, List.length_map, List.length_zipIdx]
    have hRead := ByteImage.read_write_self buffer
      ⟨0, ByteImage.read (run.device c.2) c.1.va c.1.size⟩
    rw [ByteImage.read_length] at hRead
    dsimp only [pipe]
    rw [if_pos rfl, if_pos hCopy, hRead]

theorem PassRun.Ends.untouched (hEnds : run.Ends false f chunks) : run.behind = run.before := by
  rw [PingPong.ends_iff.mp hEnds, PingPong.pass_eq_foldl (fun _ => True)
    (fun _ image => image) (fun _ _ _ _ => trivial) ?_ (fun _ => trivial)]
  · induction f.handed chunks with
    | nil => rfl
    | cons c rest ih => exact ih
  · intro c _ buffer _ image
    rfl

/-- A pass without a lost copy leaves a clean image, with the chunks that it hands over. -/
theorem PassRun.Ends.clean (hApart : PlacedApart chunks) {target : Bool}
    (hEnds : run.Ends target f chunks) (h : target = true → f.NoLost chunks) :
    run.Clean f chunks ∧ (target = true → f.ready = true → ∀ j c, chunks[j]? = some c →
      (∀ k ≤ j, f.copy k ≠ .refused) → ∀ off < c.size,
        Delivered (f.moves chunks) f.copy run.device run.behind (c.va + off) (c.imgOff + off)) := by
  cases target with
  | false => exact ⟨fun pos => .inl (by rw [hEnds.untouched]), (nomatch ·)⟩
  | true =>
      have hLast := hEnds.of_noLost (h rfl)
      have hDelivered := delivered_writeAll (h rfl).done run.device run.before
      rw [← hLast] at hDelivered
      obtain ⟨n, hLe, hHanded, hReady, _⟩ := handed_eq f chunks
      constructor
      · intro pos
        by_cases hCovered : ∃ m ∈ f.moves chunks, m.2 ≤ pos ∧ pos < m.2 + m.1.size
        · exact .inr ((hDelivered pos).1 hCovered)
        · exact .inl ((hDelivered pos).2 hCovered)
      · intro _ hOn j c hc hBefore off hOff
        have hjn : j < n := by
          by_contra hBehind
          have hj := (List.getElem?_eq_some_iff.mp hc).1
          exact hBefore n (by omega) ((hReady hOn).2 (by omega))
        have hMove : c.move ∈ f.moves chunks := by
          rw [moves_eq hHanded]
          exact List.mem_map_of_mem
            (List.mem_of_getElem? (by rw [List.getElem?_take_of_lt hjn, hc]))
        obtain ⟨addr, hByte⟩ := (hDelivered (c.imgOff + off)).1
          ⟨c.move, hMove, Nat.le_add_right _ _, Nat.add_lt_add_left hOff _⟩
        obtain ⟨_, _, _, rfl, _⟩ := hApart.delivered hc
          ⟨Nat.le_add_right _ off, Nat.add_lt_add_left hOff _⟩ hByte
        rwa [Nat.add_sub_cancel_left] at hByte

/-- A pass that leaves a clean image whatever its buffers hold loses no copy. -/
theorem PassFaults.noLost_of_clean (hApart : PlacedApart chunks)
    (h : ∀ run : PassRun, run.Ends true f chunks → run.Clean f chunks) : f.NoLost chunks := by
  intro hOn j hj hBefore hLost
  obtain ⟨n, hLe, hHanded, hReady, _⟩ := handed_eq f chunks
  have hjn : j < n := by
    by_contra hBehind
    have hRefused := (hReady hOn).2 (by omega)
    rcases Nat.lt_or_eq_of_le (Nat.not_lt.mp hBehind) with hLt | rfl
    · exact hBefore n hLt hRefused
    · cases hLost.symm.trans hRefused
  obtain ⟨c, hc⟩ : ∃ c, chunks[j]? = some c := ⟨_, List.getElem?_eq_getElem hj⟩
  have hPos := hApart.pos c (List.mem_of_getElem? hc)
  -- the device and the buffers hold ones, and the image twos
  let run : PassRun := ⟨fun _ _ => 1, fun _ _ => 1, fun _ => 2,
    PingPong.pass (pipe true f.copy fun _ _ => 1) (f.handed chunks) 0 (fun _ _ => 1) fun _ => 2⟩
  have hFill : ∀ c ∈ f.handed chunks, ∀ b : Image, (∀ a, b a = 1) →
      ∀ a, (pipe true f.copy fun _ _ => 1).fill c b a = 1 := by
    intro c _ b hb a
    dsimp only [pipe]
    split
    · rw [ByteImage.read_const (fun _ => rfl), ByteImage.write_replicate, hb, ite_self]
    · exact hb a
  have hBehind : run.behind = writeAll (fun _ => 2) ((f.handed chunks).map fun c =>
      ⟨c.1.imgOff, List.replicate c.1.size 1⟩) := by
    rw [writeAll, List.foldl_map]
    refine PingPong.pass_eq_foldl _ _ hFill (fun c hc b hb image => ?_) (fun _ _ => rfl) 0 _
    exact congrArg (fun bytes => ByteImage.write image ⟨c.1.imgOff, bytes⟩)
      (ByteImage.read_const (hFill c hc b hb) 0 c.1.size)
  have hWritten : run.behind c.imgOff = 1 := by
    have hMem : (c, j) ∈ f.handed chunks := by
      rw [hHanded, List.mem_zipIdx_iff_getElem?, List.getElem?_take_of_lt hjn, hc]
    obtain ⟨w, hw, ⟨hLow, hHigh⟩, hByte⟩ := ByteImage.writeAll_covered (fun _ => 2)
      ((f.handed chunks).map fun c => ⟨c.1.imgOff, List.replicate c.1.size 1⟩) c.imgOff
      ⟨_, List.mem_map_of_mem hMem, Nat.le_refl _, by simpa [Write.stop] using hPos⟩
    obtain ⟨d, _, rfl⟩ := List.mem_map.mp hw
    rw [Write.stop, List.length_replicate] at hHigh
    dsimp only at hLow hHigh
    rw [hBehind, hByte, List.getD_eq_getElem?_getD, List.getElem?_replicate,
      if_pos (by dsimp only; omega)]
    rfl
  rcases h run (PingPong.ends_iff.mpr rfl) c.imgOff with hSame | ⟨addr, hByte⟩
  · rw [hWritten] at hSame
    cases hSame
  · obtain ⟨_, hDone, _⟩ := hApart.delivered hc ⟨Nat.le_refl _, Nat.lt_add_of_pos_right hPos⟩ hByte
    cases hLost.symm.trans hDone

end Pass

section Tables

variable {image : Option Nat} {t now : Table PhosFlags} {s s' : State PhosFlags}

/-- What holds of the table at all times. -/
structure Slotted (image : Option Nat) (t : Table PhosFlags) : Prop where
  packed : Packed image t
  pos : ∀ e ∈ t.allocs, 0 < e.size

/-- A later table has the records of an earlier one in the same places. -/
def Keeps (t now : Table PhosFlags) : Prop :=
  ∀ (i : Nat) (e : Alloc PhosFlags), t.allocs[i]? = some e → ∃ e' : Alloc PhosFlags,
    now.allocs[i]? = some e' ∧ e'.toRegion = e.toRegion ∧ e'.imgOffset = e.imgOffset ∧
      e'.alive = e.alive

theorem Keeps.trans {first second third : Table PhosFlags} (h : Keeps first second)
    (h' : Keeps second third) : Keeps first third := by
  intro i e he
  obtain ⟨e', he', hRegion, hOff, hAlive⟩ := h i e he
  obtain ⟨e'', he'', hRegion', hOff', hAlive'⟩ := h' i e' he'
  exact ⟨e'', he'', hRegion'.trans hRegion, hOff'.trans hOff, hAlive'.trans hAlive⟩

theorem slots_map (change : Alloc PhosFlags → Alloc PhosFlags)
    (hChange : ∀ e, (change e).slot = e.slot) (t : Table PhosFlags) :
    Table.slots { t with allocs := t.allocs.map change } = t.slots := by
  rw [Table.slots, Table.slots, List.filterMap_map]
  exact congrArg (fun g => t.allocs.filterMap g) (funext hChange)

theorem Slotted.clearDirty (h : Slotted image t) : Slotted image (clearDirty t) where
  packed := by
    have hSlots := slots_map (fun e => if e.alive then setDirty false e else e)
      (fun e => by split <;> rfl) t
    exact ⟨hSlots ▸ h.packed.below, hSlots ▸ h.packed.apart, h.packed.inside⟩
  pos := by
    intro e he
    obtain ⟨e', he', rfl⟩ := List.mem_map.mp he
    split <;> exact h.pos e' he'

theorem keeps_clearDirty (t : Table PhosFlags) : Keeps t (clearDirty t) := by
  intro i e he
  refine ⟨if e.alive then setDirty false e else e, ?_, ?_⟩
  · rw [Phos.clearDirty, List.getElem?_map, he, Option.map_some]
  · split <;> exact ⟨rfl, rfl, rfl⟩

theorem Slotted.mark (h : Slotted image t) (addr : Nat) : Slotted image (markDirtyVa addr t) := by
  rcases markDirtyVa_cases addr t with ⟨_, hSame⟩ | ⟨k, _, hFlag⟩
  · rwa [hSame]
  · have hSlots : Table.slots { t with allocs := t.allocs.modify k (setDirty true) } = t.slots :=
      slots_modify (fun e => (rfl : (setDirty true e).slot = e.slot)) k t
    rw [hFlag]
    refine ⟨⟨hSlots ▸ h.packed.below, hSlots ▸ h.packed.apart, h.packed.inside⟩, fun e he => ?_⟩
    obtain ⟨i, hi⟩ := List.getElem?_of_mem he
    obtain ⟨e', he', rfl⟩ := of_getElem?_modify_flag hi
    split <;> exact h.pos e' (List.mem_of_getElem? he')

theorem keeps_mark (addr : Nat) (t : Table PhosFlags) : Keeps t (markDirtyVa addr t) := by
  rcases markDirtyVa_cases addr t with ⟨_, hSame⟩ | ⟨k, _, hFlag⟩
  · rw [hSame]
    exact fun i e he => ⟨e, he, rfl, rfl, rfl⟩
  · rw [hFlag]
    intro i e he
    refine ⟨_, getElem?_modify_flag true k i he, ?_⟩
    split <;> exact ⟨rfl, rfl, rfl⟩

theorem pos_append (h : ∀ e ∈ t.allocs, 0 < e.size) {r : Region} (hSize : 0 < r.size) :
    ∀ e ∈ (phos.append image r t).2.allocs, 0 < e.size := by
  intro e he
  rw [append_allocs] at he
  split at he
  · rcases List.mem_append.mp he with he | he
    · exact h e he
    · cases List.mem_singleton.mp he
      exact hSize
  · exact h e he

theorem keeps_append (r : Region) (t : Table PhosFlags) : Keeps t (phos.append image r t).2 := by
  intro i e he
  refine ⟨e, ?_, rfl, rfl, rfl⟩
  rw [append_allocs]
  split
  · rw [List.getElem?_append_left (List.getElem?_eq_some_iff.mp he).1, he]
  · exact he

theorem pos_retire (h : ∀ e ∈ t.allocs, 0 < e.size) (addr : Nat) :
    ∀ e ∈ (t.retireAlloc addr).allocs, 0 < e.size := by
  intro e he
  rw [Table.retireAlloc, Table.updateAt] at he
  split at he
  · exact h e he
  · split at he
    · exact h e he
    · obtain ⟨i, hi⟩ := List.getElem?_of_mem he
      rw [List.getElem?_modify] at hi
      obtain ⟨e', he', rfl⟩ := Option.map_eq_some_iff.mp hi
      split <;> exact h e' (List.mem_of_getElem? he')

theorem Slotted.call (h : Slotted image s.table) {c : Call}
    (hNext : Emul.next phos image s c = some s') : Slotted image s'.table := by
  refine ⟨h.packed.next hNext, ?_⟩
  cases c with
  | alloc vmm va size =>
      rcases next_alloc hNext with ⟨_, rfl⟩ | ⟨_, hSize, _, rfl⟩
      · exact h.pos
      · exact pos_append h.pos hSize
  | free va =>
      obtain ⟨_, rfl⟩ := next_free hNext
      exact pos_retire h.pos va
  | unmap va size =>
      obtain ⟨_, _, rfl⟩ := next_unmap hNext
      exact pos_retire h.pos va

theorem Slotted.touch (h : Slotted image s.table) {a : Touch} (hNext : Phos.touch image s a = some s') :
    Slotted image s'.table ∧ Keeps s.table s'.table := by
  cases a with
  | alloc vmm va size =>
      refine ⟨h.call hNext, ?_⟩
      rcases next_alloc hNext with ⟨_, rfl⟩ | ⟨_, _, _, rfl⟩
      · exact fun i e he => ⟨e, he, rfl, rfl, rfl⟩
      · exact keeps_append _ _
  | mark addr =>
      cases hNext
      exact ⟨h.mark addr, keeps_mark addr s.table⟩

theorem Slotted.touches (h : Slotted image s.table) {as : List Touch}
    (hRun : execute (Phos.touch image) s as = some s') :
    Slotted image s'.table ∧ Keeps s.table s'.table := by
  have hStep : ∀ s₁ a s₂, Slotted image s₁.table ∧ Keeps s.table s₁.table →
      Phos.touch image s₁ a = some s₂ → Slotted image s₂.table ∧ Keeps s.table s₂.table := by
    intro s₁ a s₂ hInv hNext
    obtain ⟨hSlotted, hKeeps⟩ := hInv.1.touch hNext
    exact ⟨hSlotted, hInv.2.trans hKeeps⟩
  exact invariant_execute hStep as s s' ⟨h, fun i e he => ⟨e, he, rfl, rfl, rfl⟩⟩ hRun

theorem Slotted.nextOp {images : Images} (h : Slotted images.base s.table) {op : RoundOp}
    (hNext : Phos.nextOp images s op = some s') : Slotted images.base s'.table := by
  cases op with
  | call c => exact h.call hNext
  | mark addr =>
      cases hNext
      exact h.mark addr
  | round early late => exact ((show Slotted images.base _ from h.clearDirty).touches hNext).1

/-- A chunk of an entry lies in it, at its place. -/
theorem mem_entryChunks {staging va size imgBase : Nat} (hStaging : 0 < staging) {c : Chunk}
    (fuel off : Nat) (h : c ∈ entryChunks staging va size imgBase fuel off) :
    ∃ k, off ≤ k ∧ c.va = va + k ∧ c.imgOff = imgBase + k ∧ 0 < c.size ∧ k + c.size ≤ size := by
  induction fuel generalizing off with
  | zero => cases h
  | succ fuel ih =>
      rw [entryChunks] at h
      split at h
      · dsimp only at h
        rcases List.mem_cons.mp h with rfl | h
        · refine ⟨off, Nat.le_refl _, rfl, rfl, ?_⟩
          dsimp only
          split <;> omega
        · obtain ⟨k, hLow, hRest⟩ := ih _ h
          exact ⟨k, by split at hLow <;> omega, hRest⟩
      · cases h

theorem entryChunks_apart {staging va size imgBase : Nat} (hStaging : 0 < staging)
    (fuel off : Nat) : (entryChunks staging va size imgBase fuel off).Pairwise fun a b =>
      a.imgOff + a.size ≤ b.imgOff ∨ b.imgOff + b.size ≤ a.imgOff := by
  induction fuel generalizing off with
  | zero => exact List.Pairwise.nil
  | succ fuel ih =>
      rw [entryChunks]
      split
      · refine List.Pairwise.cons (fun c hc => ?_) (ih _)
        obtain ⟨k, hLow, _, hPlace, _⟩ := mem_entryChunks hStaging _ _ hc
        dsimp only
        omega
      · exact List.Pairwise.nil

theorem mem_snapshot {snap : SnapEnt} : snap ∈ snapshotLiveAllocs t.allocs ↔
    ∃ e, t.allocs[snap.idx]? = some e ∧ e.alive = true ∧ e.toRegion = snap.toRegion := by
  rw [snapshotLiveAllocs, List.mem_filterMap]
  constructor
  · rintro ⟨⟨e, i⟩, hMem, hLive⟩
    obtain ⟨hAlive, rfl⟩ : e.alive = true ∧ ⟨e.toRegion, i⟩ = snap := by simpa using hLive
    exact ⟨e, List.mem_zipIdx_iff_getElem?.mp hMem, hAlive, rfl⟩
  · rintro ⟨e, he, hAlive, hRegion⟩
    exact ⟨(e, snap.idx), List.mem_zipIdx_iff_getElem?.mpr he, by dsimp only; rw [if_pos hAlive, hRegion]⟩

theorem snapshot_distinct (allocs : List (Alloc PhosFlags)) :
    (snapshotLiveAllocs allocs).Pairwise fun a b => a.idx ≠ b.idx := by
  rw [snapshotLiveAllocs, List.pairwise_filterMap, List.pairwise_iff_getElem]
  intro i j hi hj hLt a ha b hb
  obtain ⟨_, rfl⟩ : _ ∧ _ = a := by simpa using ha
  obtain ⟨_, rfl⟩ : _ ∧ _ = b := by simpa using hb
  exact Nat.ne_of_lt hLt

/-- The chunks of an entry are those of its record, at its slot. -/
theorem mem_buildChunks {images : Images} {dirtyOnly : Bool} (hKeeps : Keeps t now) {snap : SnapEnt}
    {e : Alloc PhosFlags} (he : t.allocs[snap.idx]? = some e) (hAlive : e.alive = true)
    (hRegion : e.toRegion = snap.toRegion) {c : Chunk} :
    c ∈ buildChunks now.allocs [snap] images.staging.bytes dirtyOnly ↔
      ∃ off, e.imgOffset = some off ∧ (dirtyOnly = true → Flagged now snap.idx) ∧
        c ∈ entryChunks images.staging.bytes e.va e.size off e.size 0 := by
  obtain ⟨e', he', _, hOff', hAlive'⟩ := hKeeps snap.idx e he
  have hFlagged : Flagged now snap.idx ↔ e'.flags.dirtyThisRound = true := by
    simp [Flagged, he']
  rw [hFlagged, ← hOff', hRegion]
  simp only [buildChunks, List.flatMap_cons, List.flatMap_nil, List.append_nil, he', hAlive', hAlive,
    Bool.not_true, Bool.or_false]
  cases e'.imgOffset <;> cases dirtyOnly <;> cases e'.flags.dirtyThisRound <;> simp

theorem passChunks_eq (images : Images) (t now : Table PhosFlags) (dirtyOnly : Bool) :
    passChunks images t now dirtyOnly = (snapshotLiveAllocs t.allocs).flatMap fun snap =>
      buildChunks now.allocs [snap] images.staging.bytes dirtyOnly := by
  simp [passChunks, buildChunks]

/-- The chunks of a pass are those of live records of the snapshot, at their slots. -/
theorem mem_passChunks {images : Images} {dirtyOnly : Bool} (hKeeps : Keeps t now) {c : Chunk} :
    c ∈ passChunks images t now dirtyOnly ↔ ∃ (i : Nat) (e : Alloc PhosFlags) (off : Nat),
      t.allocs[i]? = some e ∧ e.alive = true ∧ e.imgOffset = some off ∧
        (dirtyOnly = true → Flagged now i) ∧
        c ∈ entryChunks images.staging.bytes e.va e.size off e.size 0 := by
  rw [passChunks_eq, List.mem_flatMap]
  constructor
  · rintro ⟨snap, hSnap, hc⟩
    obtain ⟨e, he, hAlive, hRegion⟩ := mem_snapshot.mp hSnap
    obtain ⟨off, hOff, hDirty, hc⟩ := (mem_buildChunks hKeeps he hAlive hRegion).mp hc
    exact ⟨snap.idx, e, off, he, hAlive, hOff, hDirty, hc⟩
  · rintro ⟨i, e, off, he, hAlive, hOff, hDirty, hc⟩
    refine ⟨⟨e.toRegion, i⟩, mem_snapshot.mpr ⟨e, he, hAlive, rfl⟩, ?_⟩
    exact (mem_buildChunks hKeeps he hAlive rfl).mpr ⟨off, hOff, hDirty, hc⟩

theorem staging_pos (images : Images) : 0 < images.staging.bytes :=
  Nat.lt_of_lt_of_le (Nat.two_pow_pos 20) images.staging.large

/-- The place of a chunk is in the slot of one record. -/
theorem Slotted.eq_of_chunk (h : Slotted image t) {i j off off' : Nat} {e f : Alloc PhosFlags}
    (he : t.allocs[i]? = some e) (hf : t.allocs[j]? = some f) (hOff : e.imgOffset = some off)
    (hOff' : f.imgOffset = some off') (pos : Nat) (hePos : off ≤ pos ∧ pos < off + e.size)
    (hfPos : off' ≤ pos ∧ pos < off' + f.size) : i = j :=
  h.packed.eq_of_covers he hf hOff hOff' pos hePos hfPos

theorem Slotted.apart {images : Images} (h : Slotted images.base t) (hKeeps : Keeps t now)
    (dirtyOnly : Bool) : PlacedApart (passChunks images t now dirtyOnly) where
  pos := by
    intro c hc
    obtain ⟨_, _, _, _, _, _, _, hChunk⟩ := (mem_passChunks hKeeps).mp hc
    obtain ⟨_, _, _, _, hPos, _⟩ := mem_entryChunks (staging_pos images) _ _ hChunk
    exact hPos
  apart := by
    rw [passChunks_eq, List.pairwise_flatMap]
    constructor
    · intro snap hSnap
      obtain ⟨e, he, hAlive, hRegion⟩ := mem_snapshot.mp hSnap
      rw [buildChunks, List.flatMap_singleton]
      split
      · exact List.Pairwise.nil
      · split
        · exact List.Pairwise.nil
        · split
          · exact List.Pairwise.nil
          · exact entryChunks_apart (staging_pos images) _ _
    · refine (snapshot_distinct t.allocs).imp_of_mem fun {a b} ha hb hNe x hx y hy => ?_
      obtain ⟨e, he, hAlive, hRegion⟩ := mem_snapshot.mp ha
      obtain ⟨e', he', hAlive', hRegion'⟩ := mem_snapshot.mp hb
      obtain ⟨off, hOff, _, hx⟩ := (mem_buildChunks hKeeps he hAlive hRegion).mp hx
      obtain ⟨off', hOff', _, hy⟩ := (mem_buildChunks hKeeps he' hAlive' hRegion').mp hy
      obtain ⟨k, _, _, hxPlace, hxPos, hxEnd⟩ := mem_entryChunks (staging_pos images) _ _ hx
      obtain ⟨l, _, _, hyPlace, hyPos, hyEnd⟩ := mem_entryChunks (staging_pos images) _ _ hy
      by_contra hOverlap
      refine hNe (h.eq_of_chunk he he' hOff hOff' (max x.imgOff y.imgOff) ?_ ?_)
      · omega
      · omega

/-- A chunk of the pass whose place is in the slot of a record is a chunk of the record. -/
theorem Slotted.chunk (h : Slotted image t) {images : Images} {dirtyOnly : Bool}
    (hKeeps : Keeps t now) {i off : Nat} {e : Alloc PhosFlags} (he : t.allocs[i]? = some e)
    (hOff : e.imgOffset = some off) {c : Chunk} (hc : c ∈ passChunks images t now dirtyOnly)
    (hLow : off ≤ c.imgOff) (hHigh : c.imgOff < off + e.size) :
    (dirtyOnly = true → Flagged now i) ∧ ∃ k, c.va = e.va + k ∧ c.imgOff = off + k := by
  obtain ⟨j, f, off', hf, _, hOff', hDirty, hc⟩ := (mem_passChunks hKeeps).mp hc
  obtain ⟨k, _, hVa, hPlace, hPos, hEnd⟩ := mem_entryChunks (staging_pos images) _ _ hc
  have hSame : i = j := h.eq_of_chunk he hf hOff hOff' c.imgOff ⟨hLow, hHigh⟩ (by omega)
  subst hSame
  cases he.symm.trans hf
  cases hOff.symm.trans hOff'
  exact ⟨hDirty, k, hVa, hPlace⟩

/-- Each byte of a record is in a chunk of Phase 2, if the record has a slot. -/
theorem exists_chunk {images : Images} (hKeeps : Keeps t now) {i off k : Nat} {e : Alloc PhosFlags}
    (he : t.allocs[i]? = some e) (hAlive : e.alive = true) (hOff : e.imgOffset = some off)
    (hk : k < e.size) : ∃ (j : Nat) (c : Chunk), (passChunks images t now false)[j]? = some c ∧
      off ≤ c.imgOff ∧ c.imgOff < off + e.size ∧ ∃ l < c.size, e.va + k = c.va + l ∧
        off + k = c.imgOff + l := by
  have hMove : (e.va + k, off + k) ∈
      (entryChunks images.staging.bytes e.va e.size off e.size 0).flatMap Chunk.moves :=
    (mem_entryChunks_moves (staging_pos images) e.size 0 (Nat.le_add_right _ _)).mpr
      ⟨k, Nat.zero_le _, hk, rfl, rfl⟩
  obtain ⟨c, hc, hByte⟩ := List.mem_flatMap.mp hMove
  obtain ⟨l, hl, hVa, hPlace⟩ := Chunk.mem_moves.mp hByte
  obtain ⟨n, _, _, hStart, hPos, hEnd⟩ := mem_entryChunks (staging_pos images) _ _ hc
  obtain ⟨j, hj⟩ := List.getElem?_of_mem (show c ∈ passChunks images t now false from
    (mem_passChunks hKeeps).mpr ⟨i, e, off, he, hAlive, hOff, (nomatch ·), hc⟩)
  exact ⟨j, c, hj, by omega, by omega, l, hl, hVa, hPlace⟩

end Tables

variable {images : Images} {s : State PhosFlags} {early late : List Touch} {f : RoundFaults}

theorem Slotted.passes (h : Slotted images.base s.table) {s₁ s₂ : State PhosFlags}
    (hPasses : Passes images s early late s₁ s₂) :
    Keeps s.table s₁.table ∧ Keeps s.table s₂.table := by
  obtain ⟨hSlotted, hKeeps⟩ := (show Slotted images.base _ from h.clearDirty).touches hPasses.early
  have hFirst := (keeps_clearDirty s.table).trans hKeeps
  exact ⟨hFirst, hFirst.trans (hSlotted.touches hPasses.late).2⟩

theorem Slotted.safe_of_complete (h : Slotted images.base s.table)
    (hComplete : CompleteRound images s early late f) : SafeRound images s early late f := by
  intro s₁ s₂ hPasses run₂ run₄ hEnds₂ hEnds₄
  obtain ⟨hFirst, hSecond⟩ := h.passes hPasses
  obtain ⟨hBuffers, hBase, hDelta⟩ := hComplete s₁ s₂ hPasses
  obtain ⟨hClean₂, hBytes⟩ := hEnds₂.clean (h.apart hFirst false) fun _ => hBase
  obtain ⟨hClean₄, _⟩ := hEnds₄.clean (h.apart hSecond true) fun hImage =>
    hDelta (Option.isSome_iff_ne_none.mp hImage)
  refine ⟨fun i e he hAlive hDirty => ?_, hClean₂, hClean₄⟩
  rcases hBuffers i e he hAlive hDirty with hFlag | ⟨off, hOff, hReady, hCopies⟩
  · exact .inl hFlag
  · refine .inr (.inl ⟨off, hOff, fun k hk => ?_⟩)
    obtain ⟨j, c, hj, hLow, hHigh, l, hl, hVa, hPlace⟩ := exists_chunk hFirst he hAlive hOff hk
    rw [hVa, hPlace]
    exact hBytes (h.packed.image_isSome he hOff) hReady j c hj (hCopies j c hj hLow hHigh) l hl

/-- A pass can run, whatever it is given. -/
theorem exists_ends (target : Bool) (p : PassFaults) (chunks : List Chunk) :
    ∃ run : PassRun, run.Ends target p chunks := by
  refine ⟨⟨fun _ _ => 0, fun _ _ => 0, fun _ => 0, ?_⟩, ?_⟩
  · exact PingPong.pass (pipe target p.copy fun _ _ => 0) (p.handed chunks) 0 (fun _ _ => 0) fun _ => 0
  · exact PingPong.ends_iff.mpr rfl

theorem Slotted.complete_of_safe (h : Slotted images.base s.table)
    (hSafe : SafeRound images s early late f) : CompleteRound images s early late f := by
  intro s₁ s₂ hPasses
  have hRounds := hSafe s₁ s₂ hPasses
  obtain ⟨hFirst, hSecond⟩ := h.passes hPasses
  have hApart₂ := h.apart hFirst false
  have hApart₄ := h.apart hSecond true
  obtain ⟨run₂, hEnds₂⟩ := exists_ends images.base.isSome f.phase2 (passChunks images s.table s₁.table false)
  obtain ⟨run₄, hEnds₄⟩ := exists_ends images.delta.isSome f.phase4 (passChunks images s.table s₂.table true)
  refine ⟨fun i e he hAlive hDirty => ?_, ?_, fun hDelta => ?_⟩
  · rcases (hRounds run₂ run₄ hEnds₂ hEnds₄).1 i e he hAlive hDirty with
      hFlag | ⟨off, hOff, hBytes⟩ | ⟨off, hOff, hBytes⟩
    · exact .inl hFlag
    · -- its first byte, and the first byte of each of its chunks, were delivered
      have hByte : ∀ j c, (passChunks images s.table s₁.table false)[j]? = some c → off ≤ c.imgOff →
          c.imgOff < off + e.size → f.phase2.ready = true ∧ ∀ k ≤ j, f.phase2.copy k ≠ .refused := by
        intro j c hj hLow hHigh
        have hThis := hBytes (c.imgOff - off) (by omega)
        rw [Nat.add_sub_cancel' hLow] at hThis
        obtain ⟨hReady, _, hBefore, _⟩ := hApart₂.delivered hj
          ⟨Nat.le_refl _, Nat.lt_add_of_pos_right (hApart₂.pos c (List.mem_of_getElem? hj))⟩ hThis
        exact ⟨hReady, hBefore⟩
      obtain ⟨j, c, hj, hLow, hHigh, _⟩ := exists_chunk hFirst he hAlive hOff
        (h.pos e (List.mem_of_getElem? he))
      exact .inr ⟨off, hOff, (hByte j c hj hLow hHigh).1, fun j c hj hLow hHigh =>
        (hByte j c hj hLow hHigh).2⟩
    · -- Phase 4 copies what is marked
      obtain ⟨j, m, hj, _, hCovers, hPlace, _⟩ := hBytes 0 (h.pos e (List.mem_of_getElem? he))
      obtain ⟨n, _, hHanded, _⟩ := handed_eq f.phase4 (passChunks images s.table s₂.table true)
      rw [moves_eq hHanded, List.getElem?_map, Option.map_eq_some_iff] at hj
      obtain ⟨c, hc, rfl⟩ := hj
      have hMem := List.mem_of_mem_take (List.mem_of_getElem? hc)
      obtain ⟨i', e', off', he', _, hOff', hFlag, hChunk⟩ := (mem_passChunks hSecond).mp hMem
      obtain ⟨k, _, hVa, hStart, hPos, hEnd⟩ := mem_entryChunks (staging_pos images) _ _ hChunk
      obtain ⟨hLow, hHigh⟩ := hCovers
      dsimp only [Chunk.move] at hLow hHigh hPlace
      have hSame := h.eq_of_chunk he he' hOff hOff' off
        ⟨Nat.le_refl _, Nat.lt_add_of_pos_right (h.pos e (List.mem_of_getElem? he))⟩ (by omega)
      exact .inl (hSame ▸ hFlag rfl)
  · intro hReady j hj
    obtain ⟨c, hc⟩ : ∃ c, c ∈ passChunks images s.table s₁.table false := ⟨_, List.getElem_mem hj⟩
    obtain ⟨_, e, off, he, _, hOff, _⟩ := (mem_passChunks hFirst).mp hc
    have hImage := h.packed.image_isSome he hOff
    refine PassFaults.noLost_of_clean hApart₂ (fun run hEnds => ?_) hReady j hj
    exact (hRounds run run₄ (hImage ▸ hEnds) hEnds₄).2.1
  · have hImage := Option.isSome_iff_ne_none.mpr hDelta
    refine PassFaults.noLost_of_clean hApart₄ fun run hEnds => ?_
    exact (hRounds run₂ run hEnds₂ (hImage ▸ hEnds)).2.2

end FlashCkpt.Emul.Phos
