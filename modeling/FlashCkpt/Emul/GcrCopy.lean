import FlashCkpt.Emul.CopyPipeline
import FlashCkpt.Emul.GcrChunks

/-! What a round of GCR leaves when something in it fails. `do_stop_and_copy` has taken the
dirty set before `copy_and_encrypt_ranges` begins, and nothing puts a range back. -/
namespace FlashCkpt.Emul.Gcr

open Transition RangeSet
open ByteImage (Image Write writeAll)

/-- What the round gets: the first staging buffer, the other buffers of `staging_init`, which
are never looked at, the stream, the events and the consumer; and how each of its copies ends. -/
structure Faults where
  staging : Bool
  buffers : Bool
  stream : Bool
  events : Bool
  consumer : Bool
  copy : Nat → CopyEnd

/-- The slots that have chunks: a last one that is empty is dropped. -/
def Build.filled (b : Build) : List Slot :=
  if 0 < b.current.count then b.slots ++ [b.current] else b.slots

/-- The chunks of a slot with their numbers in the array. -/
def Build.slotChunks (b : Build) (s : Slot) : List (Chunk × Nat) :=
  (b.chunks.zipIdx.drop s.first).take s.count

def Build.items (b : Build) : List (List (Chunk × Nat)) := b.filled.map b.slotChunks

/-- The producer copies the chunks of a slot behind each other into a staging buffer, and goes
on when a copy fails. The consumer writes all of them to the image. -/
def pipe (copy : Nat → CopyEnd) (device : Nat → Image) :
    PingPong.Pipe (List (Chunk × Nat)) Image Image where
  fill slot buffer := writeAll buffer <|
    (slot.filter fun c => copy c.2 = .done).map fun c =>
      ⟨c.1.packOff, ByteImage.read (device c.2) c.1.va c.1.size⟩
  drain slot buffer image := writeAll image <|
    slot.map fun c => ⟨c.1.imgAbs, ByteImage.read buffer c.1.packOff c.1.size⟩

/-- `copy_and_encrypt_ranges` up to the pipeline: the slots that it hands to it. It is `none`
where the slots run over their array or a null pointer is used. -/
def Process.handed (cfg : Config) (p : Process) (memory : Bool) (f : Faults) :
    Option (List (List (Chunk × Nat))) :=
  if p.taken = [] ∨ f.staging = false ∨ cfg.image = none then some []
  else
    (buildChunksGcr p.table cfg.staging memory p.taken).bind fun b =>
      if b.chunks = [] ∨ b.filled = [] then some []
      else if f.stream && f.events && f.consumer then if f.buffers then some b.items else none
      else some []

/-- The moves of the slots. -/
def moves (slots : List (List (Chunk × Nat))) : List Move :=
  slots.flatten.map fun c => (c.1.toRegion, c.1.imgAbs)

/-- The place of an address in the slot of its allocation. -/
def Process.Place (p : Process) (addr pos : Nat) : Prop :=
  ∃ m ∈ p.mapped, m.Covers addr ∧ ∃ record off, Owns m record off ∧ pos = off + (addr - m.va)

/-- Whatever the device and the buffers hold: behind the round each dirty byte is at its
place in the image or still dirty, and the image was changed by bytes of this round only. -/
def Process.Safe (cfg : Config) (p : Process) (memory : Bool) (f : Faults) : Prop :=
  ∃ slots, p.handed cfg memory f = some slots ∧
    ∀ device staging image image', PingPong.Ends (pipe f.copy device) slots staging image image' →
      (∀ addr, p.dirty.Has addr →
        (∃ q, next cfg p (.round memory) = some q ∧ q.dirty.Has addr) ∨
          ∃ pos, p.Place addr pos ∧ Delivered (moves slots) f.copy device image' addr pos) ∧
      ∀ pos, image' pos = image pos ∨ ∃ addr, Delivered (moves slots) f.copy device image' addr pos

/-- Nothing fails: the round gets all it asks for, each range lies in one allocation that has a
slot, the chunks can be divided into slots of a staging buffer, and every copy is done. -/
structure Process.Complete (cfg : Config) (p : Process) (memory : Bool) (f : Faults) : Prop where
  memory : memory = true
  staging : f.staging = true
  buffers : f.buffers = true
  pipeline : (f.stream && f.events && f.consumer) = true
  resolves : ∀ r ∈ p.dirty.list, r ∈ p.taken ∧ ∃ m ∈ p.mapped, ∃ record off, Owns m record off ∧
    m.va ≤ r.start ∧ r.stop ≤ m.va + m.size ∧ p.table.findAllocIdx r.start = some record
  divides : NextFit.Divides cfg.staging (p.taken.length + 1)
    ((p.taken.flatMap (pieces p.table cfg.staging)).map fun piece => piece.1.size)
  copies : ∀ j < (p.taken.flatMap (pieces p.table cfg.staging)).length, f.copy j = .done

/-- The chunks lie behind each other in a staging buffer. -/
def Tiled : Nat → List Chunk → Nat → Prop
  | start, [], stop => start = stop
  | start, c :: rest, stop => c.packOff = start ∧ Tiled (start + c.size) rest stop

theorem Tiled.concat {start stop : Nat} {chunks : List Chunk} (h : Tiled start chunks stop)
    {c : Chunk} (hc : c.packOff = stop) : Tiled start (chunks ++ [c]) (stop + c.size) := by
  induction chunks generalizing start with
  | nil =>
      cases h
      exact ⟨hc, rfl⟩
  | cons first rest ih => exact ⟨h.1, ih h.2⟩

/-- The copies of the chunks into the buffer follow each other without a gap. -/
theorem Tiled.packed {start stop : Nat} {slot : List (Chunk × Nat)}
    (h : Tiled start (slot.map Prod.fst) stop) (device : Nat → Image) :
    ByteImage.Packed start (slot.map fun c =>
      (⟨c.1.packOff, ByteImage.read (device c.2) c.1.va c.1.size⟩ : Write)) stop := by
  induction slot generalizing start with
  | nil => exact h
  | cons c rest ih =>
      obtain ⟨rfl, hRest⟩ := h
      refine ⟨rfl, ?_⟩
      rw [Write.stop, ByteImage.read_length]
      exact ih hRest

/-- The slots are those of these groups of chunks, of which the first has number `n`. -/
def Grouped : Nat → List Slot → List (List Chunk) → Prop
  | _, [], [] => True
  | n, s :: slots, g :: groups => s.first = n ∧ s.count = g.length ∧ Tiled 0 g s.totalBytes ∧
      Grouped (n + g.length) slots groups
  | _, _, _ => False

theorem Grouped.concat {n : Nat} {slots : List Slot} {groups : List (List Chunk)}
    (h : Grouped n slots groups) {s : Slot} {g : List Chunk}
    (hFirst : s.first = n + groups.flatten.length) (hCount : s.count = g.length)
    (hTiled : Tiled 0 g s.totalBytes) : Grouped n (slots ++ [s]) (groups ++ [g]) := by
  induction slots generalizing n groups with
  | nil =>
      cases groups with
      | nil => exact ⟨hFirst, hCount, hTiled, trivial⟩
      | cons first rest => exact h.elim
  | cons slot slots ih =>
      cases groups with
      | nil => exact h.elim
      | cons group groups =>
          obtain ⟨hFirst', hCount', hTiled', hRest⟩ := h
          refine ⟨hFirst', hCount', hTiled', ih hRest ?_⟩
          rw [hFirst, List.flatten_cons, List.length_append, Nat.add_assoc]

/-- The slots of a list whose elements from number `n` on are those groups. -/
theorem Grouped.cut {n : Nat} {slots : List Slot} {groups : List (List Chunk)}
    (h : Grouped n slots groups) {all : List (Chunk × Nat)}
    (hAll : (all.drop n).map Prod.fst = groups.flatten) :
    (slots.map fun s => (all.drop s.first).take s.count).flatten = all.drop n ∧
      ∀ s ∈ slots, Tiled 0 (((all.drop s.first).take s.count).map Prod.fst) s.totalBytes := by
  induction slots generalizing n groups with
  | nil =>
      cases groups with
      | nil => exact ⟨(List.map_eq_nil_iff.mp hAll).symm, fun s h => absurd h List.not_mem_nil⟩
      | cons first rest => exact h.elim
  | cons s slots ih =>
      cases groups with
      | nil => exact h.elim
      | cons g groups =>
          obtain ⟨rfl, hCount, hTiled, hRest⟩ := h
          rw [List.flatten_cons] at hAll
          have hGroup : ((all.drop s.first).take s.count).map Prod.fst = g := by
            rw [List.map_take, hAll, hCount, List.take_left]
          have hBehind : (all.drop (s.first + g.length)).map Prod.fst = groups.flatten := by
            rw [← List.drop_drop, List.map_drop, hAll, List.drop_left]
          obtain ⟨hFlat, hTiles⟩ := ih hRest hBehind
          constructor
          · rw [List.map_cons, List.flatten_cons, hFlat, ← List.drop_drop, hCount,
              List.take_append_drop]
          · rw [List.forall_mem_cons]
            exact ⟨hGroup ▸ hTiled, hTiles⟩

/-- The chunks are those of the closed slots and of the current one. -/
def Build.Laid (b : Build) : Prop :=
  ∃ groups last, b.chunks = groups.flatten ++ last ∧ Grouped 0 b.slots groups ∧
    b.current.first = groups.flatten.length ∧ b.current.count = last.length ∧
    Tiled 0 last b.current.totalBytes

theorem Build.laid_init : Build.init.Laid := ⟨[], [], rfl, trivial, rfl, rfl, rfl⟩

theorem Build.Laid.put {staging slotCap : Nat} {b b' : Build} (h : b.Laid) {piece : Region × Nat}
    (hPut : b.put staging slotCap piece = some b') : b'.Laid := by
  obtain ⟨groups, last, hChunks, hGrouped, hFirst, hCount, hTiled⟩ := h
  rcases Build.put_cases hPut with ⟨-, rfl⟩ | ⟨-, rfl⟩
  · refine ⟨groups ++ [last], [⟨piece.1, piece.2, 0⟩], ?_, ?_, ?_, rfl, rfl, ?_⟩
    · simp [hChunks]
    · exact hGrouped.concat (by rw [hFirst, Nat.zero_add]) hCount hTiled
    · simp [hChunks]
    · rfl
  · refine ⟨groups, last ++ [⟨piece.1, piece.2, b.current.totalBytes⟩], ?_, hGrouped, hFirst, ?_,
      hTiled.concat rfl⟩
    · rw [hChunks, List.append_assoc]
    · rw [List.length_append, hCount]
      rfl

theorem laid_of_buildChunksGcr {t : Table GcrFlags} {staging : Nat} {memory : Bool}
    {ranges : List (Range Nat)} {b : Build}
    (h : buildChunksGcr t staging memory ranges = some b) : b.Laid := by
  rw [buildChunksGcr] at h
  split at h
  · cases h
    exact Build.laid_init
  · exact Build.keeps_ranges (fun _ _ hLaid => hLaid) (fun _ _ _ _ hLaid hPut => hLaid.put hPut)
      Build.laid_init h

theorem Build.Laid.filled {b : Build} (h : b.Laid) :
    ∃ groups, b.chunks = groups.flatten ∧ Grouped 0 b.filled groups := by
  obtain ⟨groups, last, hChunks, hGrouped, hFirst, hCount, hTiled⟩ := h
  rw [Build.filled]
  split
  · refine ⟨groups ++ [last], ?_, hGrouped.concat (by rw [hFirst, Nat.zero_add]) hCount hTiled⟩
    rw [hChunks, List.flatten_append, List.flatten_singleton]
  · have hEmpty : last = [] := List.length_eq_zero_iff.mp (by omega)
    exact ⟨groups, by rw [hChunks, hEmpty, List.append_nil], hGrouped⟩

/-- The slots that are handed over have all chunks in their order, and those of one slot lie
behind each other in the buffer. -/
theorem Build.Laid.items {b : Build} (h : b.Laid) :
    b.items.flatten = b.chunks.zipIdx ∧
      ∀ s ∈ b.filled, Tiled 0 ((b.slotChunks s).map Prod.fst) s.totalBytes := by
  obtain ⟨groups, hChunks, hGrouped⟩ := h.filled
  apply @Grouped.cut 0 b.filled groups hGrouped b.chunks.zipIdx
  rw [List.drop_zero, List.zipIdx_map_fst, hChunks]

variable {cfg : Config} {p : Process} {memory : Bool} {f : Faults}

/-- Where something is handed over, nothing was missing before it. -/
theorem handed_cases {slots : List (List (Chunk × Nat))}
    (h : p.handed cfg memory f = some slots) (hSlots : slots ≠ []) :
    p.taken ≠ [] ∧ memory = true ∧ f.staging = true ∧ f.buffers = true ∧
      (f.stream && f.events && f.consumer) = true ∧
      ∃ b, buildChunksGcr p.table cfg.staging true p.taken = some b ∧ slots = b.items := by
  rw [Process.handed] at h
  split at h
  · exact absurd (Option.some.inj h).symm hSlots
  · rename_i hStart
    push Not at hStart
    obtain ⟨hTaken, hStaging, hImage⟩ := hStart
    obtain ⟨b, hBuild, hRest⟩ := Option.bind_eq_some_iff.mp h
    split at hRest
    · exact absurd (Option.some.inj hRest).symm hSlots
    · rename_i hChunks
      split at hRest
      · rename_i hPipeline
        obtain ⟨hBuffers, hItems⟩ := Option.ite_none_right_eq_some.mp hRest
        cases memory with
        | true =>
            exact ⟨hTaken, rfl, by simpa using hStaging, hBuffers, hPipeline, b, hBuild,
              (Option.some.inj hItems).symm⟩
        | false =>
            rw [buildChunksGcr, if_pos (.inr rfl)] at hBuild
            cases hBuild
            exact (hChunks (.inl rfl)).elim
      · exact absurd (Option.some.inj hRest).symm hSlots

theorem Build.Laid.moves {b : Build} (h : b.Laid) :
    Gcr.moves b.items = b.chunks.map fun c => (c.toRegion, c.imgAbs) := by
  rw [Gcr.moves, h.items.1]
  conv_rhs => rw [← List.zipIdx_map_fst 0 b.chunks, List.map_map]
  rfl

/-- The moves are the chunks of the ranges taken. -/
theorem moves_items {b : Build} (hBuild : buildChunksGcr p.table cfg.staging true p.taken = some b) :
    moves b.items = p.taken.flatMap (pieces p.table cfg.staging) :=
  (laid_of_buildChunksGcr hBuild).moves.trans (buildChunksGcr_eq_some cfg.staging_pos hBuild)

/-- When every copy is done, the pipeline carries out the moves. -/
theorem ends_of_done {b : Build} (h : b.Laid) {copy : Nat → CopyEnd}
    (hDone : ∀ j < b.chunks.length, copy j = .done) {device : Nat → Image} {staging : Bool → Image}
    {image image' : Image} (hEnds : PingPong.Ends (pipe copy device) b.items staging image image') :
    image' = writeAll image ((moves b.items).zipIdx.map (Move.write device)) := by
  obtain ⟨hFlat, hTiles⟩ := h.items
  have hItem : ∀ slot ∈ b.items, ∀ c ∈ slot, copy c.2 = .done := by
    intro slot hSlot c hc
    have hMem : c ∈ b.chunks.zipIdx := hFlat ▸ List.mem_flatten.mpr ⟨slot, hSlot, hc⟩
    exact hDone c.2 (List.getElem?_eq_some_iff.mp (List.mem_zipIdx_iff_getElem?.mp hMem)).1
  rw [PingPong.ends_iff.mp hEnds, PingPong.pass_eq_foldl (fun _ => True)
    (fun slot image => writeAll image (slot.map fun c =>
      ⟨c.1.imgAbs, ByteImage.read (device c.2) c.1.va c.1.size⟩))
    (fun _ _ _ _ => trivial) ?_ (fun _ => trivial)]
  · have hMoves : (moves b.items).zipIdx.map (Move.write device) = b.items.flatten.map fun c =>
        (⟨c.1.imgAbs, ByteImage.read (device c.2) c.1.va c.1.size⟩ : Write) := by
      rw [h.moves, hFlat, List.zipIdx_map, List.map_map]
      rfl
    rw [hMoves, writeAll, List.map_flatten, List.foldl_flatten, List.foldl_map]
    rfl
  · intro slot hSlot buffer _ image
    obtain ⟨s, hs, rfl⟩ := List.mem_map.mp hSlot
    have hTiled := hTiles s hs
    have hAll : (b.slotChunks s).filter (fun c => copy c.2 = .done) = b.slotChunks s := by
      rw [List.filter_eq_self]
      exact fun c hc => decide_eq_true (hItem _ hSlot c hc)
    refine congrArg (writeAll image) (List.map_congr_left fun c hc => ?_)
    have hRead := (hTiled.packed device).read_writeAll (List.Perm.refl _) buffer
      (List.mem_map_of_mem hc)
    dsimp only [pipe]
    rw [hAll]
    rw [ByteImage.read_length] at hRead
    rw [hRead]

/-- A byte of a chunk has its place in the slot of a record that covers it. -/
theorem placed_of_piece {t : Table GcrFlags} {staging : Nat} (hStaging : 0 < staging)
    {ranges : List (Range Nat)} {piece : Region × Nat} (h : piece ∈ ranges.flatMap (pieces t staging))
    {addr : Nat} (hCovers : piece.1.Covers addr) :
    (∃ r ∈ ranges, r.Covers addr) ∧
      ∃ (i : Nat) (e : Alloc GcrFlags) (off : Nat), t.allocs[i]? = some e ∧
        e.imgOffset = some off ∧ e.Covers addr ∧
        piece.2 + (addr - piece.1.va) = off + (addr - e.va) := by
  obtain ⟨r, hr, hPiece⟩ := List.mem_flatMap.mp h
  obtain ⟨i, e, off, _, he, hOff, hLow, hHigh, hBefore, hPlace, _⟩ := mem_pieces hStaging hPiece
  obtain ⟨hStart, hStop⟩ := hCovers
  exact ⟨⟨r, hr, by omega, by omega⟩, i, e, off, he, hOff, ⟨by omega, by omega⟩, by omega⟩

/-- A byte at its place in the slot of mapped memory has that place in a record as well. -/
theorem Process.Inv.placed (h : p.Inv cfg) {addr pos : Nat} (hPlace : p.Place addr pos) :
    ∃ m ∈ p.mapped, m.Covers addr ∧ ∃ record e off, Owns m record off ∧
      p.table.allocs[record]? = some e ∧ e.imgOffset = some off ∧ e.toRegion = m.toRegion ∧
      pos = off + (addr - e.va) := by
  obtain ⟨m, hm, hCovers, record, off, hOwns, rfl⟩ := hPlace
  obtain ⟨_, e, he, hRegion, hOff⟩ := h.owned hm hOwns
  exact ⟨m, hm, hCovers, record, e, off, hOwns, he, hOff, hRegion, by rw [hRegion]⟩

/-- Two bytes with one place in the image are one byte of one record. -/
theorem Process.Inv.eq_of_place (h : p.Inv cfg) {i j a b off off' : Nat} {e e' : Alloc GcrFlags}
    (he : p.table.allocs[i]? = some e) (he' : p.table.allocs[j]? = some e')
    (hOff : e.imgOffset = some off) (hOff' : e'.imgOffset = some off') (ha : e.Covers a)
    (hb : e'.Covers b) (hSame : off + (a - e.va) = off' + (b - e'.va)) : i = j ∧ a = b := by
  obtain ⟨haLow, haHigh⟩ := ha
  obtain ⟨hbLow, hbHigh⟩ := hb
  have hIndex : i = j := h.packed.eq_of_covers he he' hOff hOff' (off + (a - e.va))
    ⟨by dsimp only; omega, by dsimp only; omega⟩ ⟨by dsimp only; omega, by dsimp only; omega⟩
  subst hIndex
  cases he.symm.trans he'
  cases hOff.symm.trans hOff'
  exact ⟨rfl, by omega⟩

/-- Where a filter leaves one element, only one place meets it. -/
theorem index_eq_of_filter {α : Type} {l : List α} {keep : α → Bool}
    (hOne : (l.filter keep).length ≤ 1) {j k : Nat} {x y : α} (hx : l[j]? = some x)
    (hy : l[k]? = some y) (hxKeep : keep x = true) (hyKeep : keep y = true) : j = k := by
  have hNot : ∀ {j k : Nat} {x y : α}, l[j]? = some x → l[k]? = some y → keep x = true →
      keep y = true → ¬j < k := by
    intro j k x y hx hy hxKeep hyKeep hLt
    have hFront : x ∈ (l.take k).filter keep := by
      rw [List.mem_filter]
      exact ⟨List.mem_of_getElem? (by rwa [List.getElem?_take_of_lt hLt]), hxKeep⟩
    have hBack : y ∈ (l.drop k).filter keep := by
      rw [List.mem_filter]
      exact ⟨List.mem_of_getElem? (i := 0) (by rwa [List.getElem?_drop]), hyKeep⟩
    have hFrontPos := List.length_pos_of_mem hFront
    have hBackPos := List.length_pos_of_mem hBack
    rw [← List.take_append_drop k l, List.filter_append, List.length_append] at hOne
    omega
  have hjk := hNot hx hy hxKeep hyKeep
  have hkj := hNot hy hx hyKeep hxKeep
  omega

/-- One chunk of the round has a byte. -/
theorem eq_of_covers_pieces {t : Table GcrFlags} {staging : Nat} (hStaging : 0 < staging)
    {ranges : List (Range Nat)} (h : Separated ranges) {j k : Nat} {x y : Region × Nat}
    (hx : (ranges.flatMap (pieces t staging))[j]? = some x)
    (hy : (ranges.flatMap (pieces t staging))[k]? = some y) {addr : Nat} (hxAddr : x.1.Covers addr)
    (hyAddr : y.1.Covers addr) : j = k := by
  obtain ⟨r, hr, hPiece⟩ := List.mem_flatMap.mp (List.mem_of_getElem? hx)
  obtain ⟨i, e, off, hFind, he, hOff, hLow, hHigh, hBefore, _⟩ := mem_pieces hStaging hPiece
  obtain ⟨hStart, hStop⟩ := hxAddr
  have hrAddr : r.Covers addr := ⟨by omega, by omega⟩
  obtain ⟨piece, hFilter, _⟩ := filter_pieces hStaging hFind he hOff hrAddr ⟨by omega, by omega⟩
  have hOne : ((ranges.flatMap (pieces t staging)).filter fun c => c.1.Covers addr).length ≤ 1 := by
    rw [filter_flatMap_pieces hStaging h hr hrAddr, hFilter]
    exact Nat.le_refl 1
  exact index_eq_of_filter hOne hx hy (decide_eq_true ⟨hStart, hStop⟩) (decide_eq_true hyAddr)

theorem Process.Inv.complete_of_safe (h : p.Inv cfg) (hSafe : p.Safe cfg memory f)
    (hDirty : p.dirty.list ≠ []) : p.Complete cfg memory f := by
  obtain ⟨slots, hHanded, hRounds⟩ := hSafe
  obtain ⟨hBytes, _⟩ := hRounds (fun _ _ => 0) (fun _ _ => 0) (fun _ => 0) _
    (PingPong.ends_iff.mpr rfl)
  -- nothing stays dirty, so a dirty byte is in a chunk whose copy is done
  have hFound : ∀ r ∈ p.dirty.list, ∀ addr, r.Covers addr → ∃ pos, p.Place addr pos ∧
      ∃ (j : Nat) (m : Move), (moves slots)[j]? = some m ∧ f.copy j = .done ∧ m.1.Covers addr ∧
        pos = m.2 + (addr - m.1.va) := by
    intro r hr addr hAddr
    rcases hBytes addr ⟨r, hr, hAddr⟩ with ⟨q, hNext, hLeft⟩ | ⟨pos, hPlace, j, m, hj, hCopy, hm, hPos, _⟩
    · cases hNext
      obtain ⟨s, hs, _⟩ := hLeft
      cases hs
    · exact ⟨pos, hPlace, j, m, hj, hCopy, hm, hPos⟩
  have hNonempty : ∀ r ∈ p.dirty.list, r.start < r.stop := p.dirty.separated.nonempty
  obtain ⟨r₀, hr₀⟩ := List.exists_mem_of_ne_nil _ hDirty
  have hSlots : slots ≠ [] := by
    rintro rfl
    obtain ⟨_, _, j, m, hj, _⟩ := hFound r₀ hr₀ r₀.start ⟨Nat.le_refl _, hNonempty r₀ hr₀⟩
    cases hj
  obtain ⟨hTaken, rfl, hStaging, hBuffers, hPipeline, b, hBuild, rfl⟩ := handed_cases hHanded hSlots
  rw [moves_items hBuild] at hFound
  have hSeparated : Separated p.taken := p.dirty.separated.sublist (List.take_sublist maxRanges _)
  refine ⟨rfl, hStaging, hBuffers, hPipeline, ?_, ?_, ?_⟩
  · intro r hr
    -- the chunks of the first and of the last byte of the range
    have hFirst : r.Covers r.start := ⟨Nat.le_refl _, hNonempty r hr⟩
    have hLast : r.Covers (r.stop - 1) := by
      have := hNonempty r hr
      exact ⟨by omega, by omega⟩
    -- a byte of the range is in a chunk of the range
    have hOwn : ∀ addr, r.Covers addr → ∃ pos, p.Place addr pos ∧ r ∈ p.taken ∧
        ∃ m ∈ pieces p.table cfg.staging r, m.1.Covers addr ∧ pos = m.2 + (addr - m.1.va) := by
      intro addr hAddr
      obtain ⟨pos, hPlace, j, m, hj, _, hm, hPos⟩ := hFound r hr addr hAddr
      obtain ⟨s, hs, hPiece⟩ := List.mem_flatMap.mp (List.mem_of_getElem? hj)
      obtain ⟨⟨s', hs', hsCovers⟩, _⟩ := placed_of_piece cfg.staging_pos
        (show m ∈ [s].flatMap (pieces p.table cfg.staging) by simpa using hPiece) hm
      cases List.mem_singleton.mp hs'
      cases p.dirty.separated.eq_of_covers (List.mem_of_mem_take hs) hr hsCovers hAddr
      exact ⟨pos, hPlace, hs, m, hPiece, hm, hPos⟩
    obtain ⟨pos, hPlace, hTaken', piece, hPiece, hCovers, hPos⟩ := hOwn r.start hFirst
    obtain ⟨m, hm, hmCovers, record, e, off, hOwns, he, hOff, hRegion, rfl⟩ := h.placed hPlace
    obtain ⟨i, e', off', hFind, he', hOff', hLow, hHigh, hBefore, hImg, _⟩ :=
      mem_pieces cfg.staging_pos hPiece
    obtain ⟨hStart, hStop⟩ := hCovers
    obtain ⟨rfl, _⟩ := h.eq_of_place he he' hOff hOff' (a := r.start) (b := r.start)
      (by rw [hRegion]; exact hmCovers) ⟨hBefore, by omega⟩ (by omega)
    cases he.symm.trans he'
    obtain ⟨_, _, _, last, hLastPiece, ⟨_, hLastStop⟩, _⟩ := hOwn (r.stop - 1) hLast
    obtain ⟨k, e'', _, hFind', he'', _, _, hHigh', _⟩ := mem_pieces cfg.staging_pos hLastPiece
    cases hFind.symm.trans hFind'
    cases he.symm.trans he''
    rw [hRegion] at hHigh' hBefore
    exact ⟨hTaken', m, hm, record, off, hOwns, hBefore, by omega, hFind⟩
  · apply (buildChunksGcr_ne_none cfg.staging_pos hTaken).mp
    rw [hBuild]
    exact Option.some_ne_none b
  · intro j hj
    obtain ⟨piece, hPiece⟩ : ∃ piece, (p.taken.flatMap (pieces p.table cfg.staging))[j]? = some piece :=
      ⟨_, List.getElem?_eq_getElem hj⟩
    have hMem := List.mem_of_getElem? hPiece
    obtain ⟨r, hr, hPieceOf⟩ := List.mem_flatMap.mp hMem
    have hPos := pieces_pos cfg.staging_pos hPieceOf
    have hStart : piece.1.Covers piece.1.va := Region.covers_va hPos
    obtain ⟨⟨s, hs, hsCovers⟩, _⟩ := placed_of_piece cfg.staging_pos hMem hStart
    obtain ⟨_, _, k, m, hk, hCopy, hm, _⟩ := hFound s (List.mem_of_mem_take hs) piece.1.va hsCovers
    rwa [eq_of_covers_pieces cfg.staging_pos hSeparated hPiece hk hStart hm]

/-- Each dirty byte is in a chunk that takes it to its place. -/
theorem Process.Inv.chunk_of_dirty (h : p.Inv cfg) (hComplete : p.Complete cfg memory f) {addr : Nat}
    (hAddr : p.dirty.Has addr) : cfg.image ≠ none ∧ ∃ piece ∈ p.taken.flatMap (pieces p.table cfg.staging),
      piece.1.Covers addr ∧ p.Place addr (piece.2 + (addr - piece.1.va)) := by
  obtain ⟨r, hr, hrAddr⟩ := hAddr
  obtain ⟨hTaken, m, hm, record, off, hOwns, hLow, hHigh, hFind⟩ := hComplete.resolves r hr
  obtain ⟨hImage, e, he, hRegion, hOff⟩ := h.owned hm hOwns
  obtain ⟨hStart, hStop⟩ := hrAddr
  have hmAddr : m.Covers addr := ⟨by omega, by omega⟩
  obtain ⟨piece, hFilter, hCovers, hPlace⟩ := filter_pieces cfg.staging_pos hFind he hOff
    ⟨hStart, hStop⟩ (by rw [hRegion]; exact hmAddr)
  have hPiece : piece ∈ pieces p.table cfg.staging r := by
    apply List.mem_of_mem_filter
    rw [hFilter]
    exact List.mem_singleton_self piece
  refine ⟨Option.isSome_iff_ne_none.mp hImage, piece, List.mem_flatMap.mpr ⟨r, hTaken, hPiece⟩,
    hCovers, m, hm, hmAddr, record, off, hOwns, ?_⟩
  rw [hPlace, hRegion]

theorem Process.Inv.safe_of_complete (h : p.Inv cfg) (hComplete : p.Complete cfg memory f) :
    p.Safe cfg memory f := by
  by_cases hTaken : p.taken = []
  · have hNone : ∀ addr, ¬p.dirty.Has addr := by
      rintro addr ⟨r, hr, _⟩
      have hMem := (hComplete.resolves r hr).1
      rw [hTaken] at hMem
      cases hMem
    refine ⟨[], by rw [Process.handed, if_pos (.inl hTaken)], fun device staging image image' hEnds => ?_⟩
    rw [PingPong.ends_iff.mp hEnds]
    exact ⟨fun addr hAddr => (hNone addr hAddr).elim, fun pos => .inl rfl⟩
  · obtain ⟨b, hBuild⟩ := Option.ne_none_iff_exists'.mp
      ((buildChunksGcr_ne_none cfg.staging_pos hTaken).mpr hComplete.divides)
    have hLaid := laid_of_buildChunksGcr hBuild
    have hMoves := moves_items hBuild
    have hDone : ∀ j < (moves b.items).length, f.copy j = .done := by
      rw [hMoves]
      exact hComplete.copies
    obtain ⟨r, hr⟩ := List.exists_mem_of_ne_nil _ hTaken
    have hDirty := List.mem_of_mem_take hr
    obtain ⟨hImage, piece, hPiece, _⟩ := h.chunk_of_dirty hComplete
      ⟨r, hDirty, Nat.le_refl _, p.dirty.separated.nonempty r hDirty⟩
    have hHanded : p.handed cfg memory f = some b.items := by
      have hChunks : b.chunks ≠ [] := by
        intro hEmpty
        rw [← hMoves, hLaid.moves, hEmpty] at hPiece
        cases hPiece
      have hFilled : b.filled ≠ [] := by
        intro hEmpty
        have hFlat := hLaid.items.1
        rw [Build.items, hEmpty] at hFlat
        exact hChunks (by simpa using congrArg List.length hFlat.symm)
      rw [Process.handed, if_neg (by simp [hTaken, hComplete.staging, hImage]), hComplete.memory,
        hBuild, Option.bind_some, if_neg (by simp [hChunks, hFilled]), if_pos hComplete.pipeline,
        if_pos hComplete.buffers]
    refine ⟨b.items, hHanded, fun device staging image image' hEnds => ?_⟩
    have hLast := ends_of_done hLaid (fun j hj => hDone j (by simpa [hLaid.moves] using hj)) hEnds
    have hDelivered := delivered_writeAll hDone device image
    rw [← hLast] at hDelivered
    constructor
    · intro addr hAddr
      obtain ⟨_, piece, hPiece, hCovers, hPlace⟩ := h.chunk_of_dirty hComplete hAddr
      refine .inr ⟨_, hPlace, ?_⟩
      obtain ⟨hLow, hHigh⟩ := hCovers
      obtain ⟨addr', hByte⟩ := (hDelivered (piece.2 + (addr - piece.1.va))).1
        ⟨piece, hMoves ▸ hPiece, by omega, by omega⟩
      -- no other byte has this place
      obtain ⟨j, m, hj, hCopy, hm, hPos, hSame⟩ := hByte
      have hMem := List.mem_of_getElem? hj
      rw [hMoves] at hMem
      obtain ⟨_, i, e, off, he, hOff, heAddr, heSame⟩ := placed_of_piece cfg.staging_pos hPiece
        ⟨hLow, hHigh⟩
      obtain ⟨_, k, e', off', he', hOff', he'Addr, he'Same⟩ := placed_of_piece cfg.staging_pos
        hMem hm
      obtain ⟨_, rfl⟩ := h.eq_of_place he he' hOff hOff' heAddr he'Addr
        (heSame.symm.trans (hPos.trans he'Same))
      exact ⟨j, m, hj, hCopy, hm, hPos, hSame⟩
    · intro pos
      by_cases hCovered : ∃ m ∈ moves b.items, m.2 ≤ pos ∧ pos < m.2 + m.1.size
      · exact .inr ((hDelivered pos).1 hCovered)
      · exact .inl ((hDelivered pos).2 hCovered)

/-- A round is safe exactly if nothing is dirty or nothing fails. -/
theorem Process.Inv.safe_iff (h : p.Inv cfg) :
    p.Safe cfg memory f ↔ p.dirty.list = [] ∨ p.Complete cfg memory f := by
  constructor
  · intro hSafe
    by_cases hDirty : p.dirty.list = []
    · exact .inl hDirty
    · exact .inr (h.complete_of_safe hSafe hDirty)
  · rintro (hDirty | hComplete)
    · refine ⟨[], ?_, fun device staging image image' hEnds => ?_⟩
      · rw [Process.handed, if_pos (.inl (by rw [Process.taken, hDirty, List.take_nil]))]
      · rw [PingPong.ends_iff.mp hEnds]
        refine ⟨fun addr ⟨r, hr, _⟩ => ?_, fun pos => .inl rfl⟩
        rw [hDirty] at hr
        cases hr
    · exact h.safe_of_complete hComplete

end FlashCkpt.Emul.Gcr
