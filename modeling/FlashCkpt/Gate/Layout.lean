import Mathlib.Data.List.GetD
import FlashCkpt.Gate.Requests
import FlashCkpt.Static.AllocTable

/-! The bytes of the gate file: `ckpt_gate_t` with its request fields and paths, the
allocation table and the table of dirty ranges, at the offsets of `ckpt_gate.h`. -/
namespace FlashCkpt.Gate.Layout

open ByteImage Restore Transition
open Static (AllocEntry)

/-- `GATE_FILE_SIZE`. -/
def gateFileSize : Nat := 262144

/-- The scalars of `ckpt_gate_t`, but for `user_va` and `user_size`. -/
inductive Field where
  | phase
  | configFlags
  | appPid
  | ckptReq
  | bufBytes
  | ckptSeq
  | hashReq
  | hashDone
  | baselineReq
  | baselineDone
  | baselineErr
  | baselineConcurrent
  | baselineMs
  | baselineBytes
  | deltaReq
  | deltaDone
  | deltaErr
  | baselineMstreams
  | deltaMs
  | deltaBytes
  deriving DecidableEq, Repr

def Field.off : Field → Nat
  | phase => 0
  | configFlags => 4
  | appPid => 8
  | ckptReq => 12
  | bufBytes => 16
  | ckptSeq => 24
  | hashReq => 48
  | hashDone => 52
  | baselineReq => 56
  | baselineDone => 60
  | baselineErr => 64
  | baselineConcurrent => 68
  | baselineMs => 72
  | baselineBytes => 80
  | deltaReq => 344
  | deltaDone => 348
  | deltaErr => 352
  | baselineMstreams => 356
  | deltaMs => 360
  | deltaBytes => 368

def Field.width : Field → Nat
  | bufBytes | ckptSeq | baselineMs | baselineBytes | deltaMs | deltaBytes => 8
  | _ => 4

def Field.store (field : Field) (value : Nat) : Write := ⟨field.off, leBytes field.width value⟩

def userVaOff : Nat := 32

def userSizeOff : Nat := 40

def baselinePathOff : Nat := 88

def deltaPathOff : Nat := 376

/-- `GATE_ALLOC_HDR_OFF`. -/
def allocHdrOff : Nat := 512

/-- `GATE_DIRTY_HDR_OFF`. -/
def dirtyHdrOff : Nat := 131072

/-- The entries of `GATE_ALLOC_TABLE`. -/
def entryOff (i : Nat) : Nat := allocHdrOff + 8 + 24 * i

/-- The entries of `GATE_DIRTY_TABLE`. -/
def dirtyOff (i : Nat) : Nat := dirtyHdrOff + 8 + 16 * i

section Views

variable (m : Image)

/-- The length of a path of the gate. -/
def strlen (off : Nat) : Nat := (List.range (gateFileSize - off)).findIdx fun i => m (off + i) = 0

def allocCount : Nat := ofLeBytes (read m allocHdrOff 4)

def flagsAt (i : Nat) : Nat := ofLeBytes (read m (entryOff i + 16) 4)

def entryAt (i : Nat) : AllocEntry where
  va := ofLeBytes (read m (entryOff i) 8)
  size := ofLeBytes (read m (entryOff i + 8) 8)
  h2d := (flagsAt m i).testBit 0
  freed := (flagsAt m i).testBit 1

/-- The table as `ckpt_core` and the restore read it. -/
def allocTable : List AllocEntry := (List.range (allocCount m)).map (entryAt m)

def gateOf : Static.Gate where
  userVa := ofLeBytes (read m userVaOff 8)
  userSize := ofLeBytes (read m userSizeOff 8)
  table := allocTable m

def dirtyCount : Nat := ofLeBytes (read m dirtyHdrOff 4)

end Views

/-- A path given on the command line. -/
structure Path where
  bytes : Bytes
  noNul : 0 ∉ bytes

/-- `snprintf` of a path into its 256 bytes. -/
def Path.print (path : Path) (off : Nat) : Write := ⟨off, Requests.snprintfPath path.bytes ++ [0]⟩

/-- What the application and the agent do with the gate. -/
inductive Op where
  | recordAlloc (va size : UInt64)
  | markFreed (va : UInt64)
  | markH2d (addr : UInt64)
  | baselineRequest (path : Path) (precopy : Bool) (mstreams : Nat)
  | deltaRequest (path : Path)
  | dirtyTable (ranges : List (Nat × Nat))
  | store (field : Field) (value : Nat)

section Writes

variable (m : Image)

/-- An allocation larger than the main one takes its place. -/
def userWrites (va size : UInt64) : List Write :=
  if ofLeBytes (read m userSizeOff 8) < size.toNat then
    [⟨userVaOff, leBytes 8 va.toNat⟩, ⟨userSizeOff, leBytes 8 size.toNat⟩]
  else []

/-- The next entry of the table, and then the number of entries. -/
def entryWrites (va size : UInt64) : List Write :=
  if allocCount m < gateAllocMax then
    [⟨entryOff (allocCount m), leBytes 8 va.toNat⟩,
      ⟨entryOff (allocCount m) + 8, leBytes 8 size.toNat⟩,
      ⟨entryOff (allocCount m) + 16, leBytes 4 0⟩, ⟨entryOff (allocCount m) + 20, leBytes 4 0⟩,
      ⟨allocHdrOff, leBytes 4 (allocCount m + 1)⟩]
  else []

/-- `gate_record_alloc`. -/
def recordAlloc (va size : UInt64) : List Write :=
  if va = 0 then [] else userWrites m va size ++ entryWrites m va size

def orFlags (i bit : Nat) : Write := ⟨entryOff i + 16, leBytes 4 (flagsAt m i ||| bit)⟩

/-- A bit is set in the flags of the entry found, if there is one. -/
def orFound (bit : Nat) (found : Option Nat) : List Write :=
  found.toList.map fun i => orFlags m i bit

/-- `gate_mark_freed`. -/
def markFreed (va : UInt64) : List Write :=
  if va = 0 then []
  else
    orFound m 2 ((List.range (allocCount m)).reverse.find? fun i =>
      (entryAt m i).va = va.toNat ∧ (entryAt m i).freed = false)

/-- `mark_h2d_flag`. -/
def markH2d (addr : UInt64) : List Write :=
  orFound m 1 ((List.range (allocCount m)).find? fun i => (entryAt m i).Covers addr.toNat)

/-- The dirty ranges, as many as there is room for, and their number. -/
def dirtyTable (ranges : List (Nat × Nat)) : List Write :=
  let kept := ranges.take Agent.gateDirtyMax
  (kept.zipIdx.flatMap fun r => [⟨dirtyOff r.2, leBytes 8 r.1.1⟩, ⟨dirtyOff r.2 + 8, leBytes 8 r.1.2⟩]) ++
    [⟨dirtyHdrOff, leBytes 4 kept.length⟩]

def Op.writes : Op → List Write
  | .recordAlloc va size => Layout.recordAlloc m va size
  | .markFreed va => Layout.markFreed m va
  | .markH2d addr => Layout.markH2d m addr
  | .baselineRequest path precopy mstreams =>
      [path.print baselinePathOff, Field.baselineDone.store 0, Field.baselineErr.store 0,
        Field.baselineMs.store 0, Field.baselineBytes.store 0] ++
      (if precopy then [Field.baselineConcurrent.store 1] else []) ++
      [Field.baselineMstreams.store mstreams]
  | .deltaRequest path =>
      [path.print deltaPathOff, Field.deltaDone.store 0, Field.deltaErr.store 0,
        Field.deltaMs.store 0, Field.deltaBytes.store 0]
  | .dirtyTable ranges => Layout.dirtyTable ranges
  | .store field value => [field.store value]

end Writes

/-- What the application recorded. -/
def Op.record (g : Static.Gate) : Op → Static.Gate
  | .recordAlloc va size => g.gateRecordAlloc va.toNat size.toNat
  | .markFreed va => g.gateMarkFreed va.toNat
  | .markH2d addr => g.markH2dFlag addr.toNat
  | _ => g

structure State where
  image : Image
  recorded : Static.Gate

/-- The gate file when it is created. -/
def start : State := ⟨fun _ => 0, ⟨0, 0, []⟩⟩

def after (s : State) (op : Op) : State :=
  ⟨writeAll s.image (op.writes s.image), op.record s.recorded⟩

def next (s : State) (op : Op) : Option State := some (after s op)

/-- The request fields and paths; the allocation header and table, with `user_va` and
`user_size`; the dirty header and table. -/
inductive Region where
  | request
  | allocs
  | dirty
  deriving DecidableEq, Repr

def Op.region : Op → Region
  | .recordAlloc _ _ | .markFreed _ | .markH2d _ => .allocs
  | .baselineRequest _ _ _ | .deltaRequest _ | .store _ _ => .request
  | .dirtyTable _ => .dirty

/-- The bytes of a region: of a path those up to its end, of a table its entries. -/
def Occupied (m : Image) : Region → Nat → Prop
  | .request, a =>
      a < userVaOff ∨ 48 ≤ a ∧ a ≤ baselinePathOff + strlen m baselinePathOff ∨
        344 ≤ a ∧ a ≤ deltaPathOff + strlen m deltaPathOff
  | .allocs, a =>
      userVaOff ≤ a ∧ a < 48 ∨ allocHdrOff ≤ a ∧ a < allocHdrOff + 4 ∨
        entryOff 0 ≤ a ∧ a < entryOff (allocCount m)
  | .dirty, a =>
      dirtyHdrOff ≤ a ∧ a < dirtyHdrOff + 4 ∨ dirtyOff 0 ≤ a ∧ a < dirtyOff (dirtyCount m)

/-- The operation leaves the bytes of the other regions as they are, and the count and
the entries of the table are then those that were recorded. -/
def Isolated (s : State) (op : Op) : Prop :=
  (∀ r, r ≠ op.region → ∀ a, Occupied s.image r a → (after s op).image a = s.image a) ∧
    gateOf (after s op).image = (after s op).recorded

/-- The path ends in front of the allocation header, or the bytes it puts there are those
of the count. -/
def Path.Fits (path : Path) (count : Nat) : Prop :=
  (Requests.snprintfPath path.bytes).length < allocHdrOff - deltaPathOff ∨
    ofLeBytes ((Requests.snprintfPath path.bytes).drop (allocHdrOff - deltaPathOff)) =
      count % 256 ^ ((Requests.snprintfPath path.bytes).length + 1 - (allocHdrOff - deltaPathOff))

/-- The condition on a step. An allocation is recorded only when the delta path ends in
front of the header. -/
def Fits (s : State) : Op → Prop
  | .deltaRequest path => path.Fits s.recorded.table.length
  | .recordAlloc va _ => va = 0 ∨ gateAllocMax ≤ s.recorded.table.length ∨
      strlen s.image deltaPathOff < allocHdrOff - deltaPathOff
  | _ => True

section Records

variable {m : Image}

theorem allocCount_congr {m' : Image} (h : read m' allocHdrOff 4 = read m allocHdrOff 4) :
    allocCount m' = allocCount m := congrArg ofLeBytes h

/-- An entry is its 24 bytes. -/
theorem entryAt_congr {m' : Image} {i : Nat}
    (h : ∀ a, entryOff i ≤ a → a < entryOff i + 24 → m' a = m a) : entryAt m' i = entryAt m i := by
  have hRead : ∀ k n, k + n ≤ 24 → read m' (entryOff i + k) n = read m (entryOff i + k) n := by
    intro k n hInside
    exact read_congr fun a hLow hHigh => h a (by omega) (by omega)
  have hVa := hRead 0 8 (by decide)
  have hSize := hRead 8 8 (by decide)
  have hFlags := hRead 16 4 (by decide)
  rw [Nat.add_zero] at hVa
  simp only [entryAt, flagsAt, hVa, hSize, hFlags]

theorem allocTable_congr {m' : Image} (hCount : read m' allocHdrOff 4 = read m allocHdrOff 4)
    (hEntries : ∀ a, entryOff 0 ≤ a → a < entryOff (allocCount m) → m' a = m a) :
    allocTable m' = allocTable m := by
  rw [allocTable, allocTable, allocCount_congr hCount]
  refine List.map_congr_left fun i hi => entryAt_congr fun a hLow hHigh => ?_
  have hLt := List.mem_range.mp hi
  simp only [entryOff] at hLow hHigh hEntries
  exact hEntries a (by omega) (by omega)

theorem uint64_lt (v : UInt64) : v.toNat < 256 ^ 8 := v.toNat_lt

theorem table_length : (gateOf m).table.length = allocCount m := by
  simp [gateOf, allocTable]

theorem gateOf_user (va size : UInt64) :
    gateOf (writeAll m (userWrites m va size)) =
      if (gateOf m).userSize < size.toNat then
        { gateOf m with userVa := va.toNat, userSize := size.toNat }
      else gateOf m := by
  by_cases hLarger : (gateOf m).userSize < size.toNat
  · have hWrites : userWrites m va size =
        [⟨userVaOff, leBytes 8 va.toNat⟩, ⟨userSizeOff, leBytes 8 size.toNat⟩] := if_pos hLarger
    have hDisjoint : (userWrites m va size).Pairwise Write.Disjoint := by
      simp [hWrites, Write.Disjoint, Write.stop, userVaOff, userSizeOff]
    have hVa := read_writeAll m hDisjoint (w := ⟨userVaOff, leBytes 8 va.toNat⟩) (by simp [hWrites])
    have hSize := read_writeAll m hDisjoint (w := ⟨userSizeOff, leBytes 8 size.toNat⟩)
      (by simp [hWrites])
    simp only [leBytes_length] at hVa hSize
    have hOutside : ∀ w ∈ userWrites m va size, w.stop ≤ allocHdrOff := by
      simp [hWrites, Write.stop, userVaOff, userSizeOff, allocHdrOff]
    have hTable : allocTable (writeAll m (userWrites m va size)) = allocTable m := by
      refine allocTable_congr (read_writeAll_outside m fun w hw => .inl (hOutside w hw)) ?_
      intro a hLow _
      refine writeAll_outside m fun w hw => .inr ?_
      have := hOutside w hw
      simp only [entryOff] at hLow
      omega
    rw [if_pos hLarger, gateOf, hVa, hSize, hTable, ofLeBytes_leBytes (uint64_lt va),
      ofLeBytes_leBytes (uint64_lt size)]
    rfl
  · have hWrites : userWrites m va size = [] := if_neg hLarger
    rw [if_neg hLarger, hWrites]
    rfl

/-- A new entry behind the others, with no flags. -/
theorem gateOf_entry (va size : UInt64) :
    gateOf (writeAll m (entryWrites m va size)) =
      if (gateOf m).table.length < gateAllocMax then
        { gateOf m with table := (gateOf m).table ++ [⟨va.toNat, size.toNat, false, false⟩] }
      else gateOf m := by
  rw [table_length]
  by_cases hRoom : allocCount m < gateAllocMax
  · generalize hCount : allocCount m = n
    have hWrites : entryWrites m va size =
        [⟨entryOff n, leBytes 8 va.toNat⟩, ⟨entryOff n + 8, leBytes 8 size.toNat⟩,
          ⟨entryOff n + 16, leBytes 4 0⟩, ⟨entryOff n + 20, leBytes 4 0⟩,
          ⟨allocHdrOff, leBytes 4 (n + 1)⟩] := by
      rw [entryWrites, if_pos hRoom, hCount]
    rw [hCount] at hRoom
    have hDisjoint : (entryWrites m va size).Pairwise Write.Disjoint := by
      rw [hWrites]
      simp [Write.Disjoint, Write.stop, entryOff, allocHdrOff]
      omega
    have hAt : ∀ w ∈ entryWrites m va size,
        read (writeAll m (entryWrites m va size)) w.off w.bytes.length = w.bytes :=
      fun w hw => read_writeAll m hDisjoint hw
    simp only [hWrites, List.forall_mem_cons, leBytes_length] at hAt
    obtain ⟨hVa, hSize, hFlags, -, hNumber, -⟩ := hAt
    rw [← hWrites] at hVa hSize hFlags hNumber
    have hOutside : ∀ w ∈ entryWrites m va size,
        entryOff n ≤ w.off ∨ allocHdrOff ≤ w.off ∧ w.stop ≤ allocHdrOff + 4 := by
      simp [hWrites, Write.stop]
    have hUser : ∀ off, off + 8 ≤ allocHdrOff →
        read (writeAll m (entryWrites m va size)) off 8 = read m off 8 := by
      intro off hOff
      refine read_writeAll_outside m fun w hw => .inr ?_
      have := hOutside w hw
      simp only [entryOff] at this
      omega
    have hOld : ∀ i < n, entryAt (writeAll m (entryWrites m va size)) i = entryAt m i := by
      intro i hi
      refine entryAt_congr fun a hLow hHigh => writeAll_outside m fun w hw => ?_
      have := hOutside w hw
      simp only [entryOff] at this hLow hHigh
      omega
    have hNew : entryAt (writeAll m (entryWrites m va size)) n =
        ⟨va.toNat, size.toNat, false, false⟩ := by
      simp only [entryAt, flagsAt, hVa, hSize, hFlags, ofLeBytes_leBytes (uint64_lt _)]
      rfl
    have hMore : n + 1 < 256 ^ 4 := Nat.lt_of_le_of_lt hRoom (by decide)
    have hTable : allocTable (writeAll m (entryWrites m va size)) =
        allocTable m ++ [⟨va.toNat, size.toNat, false, false⟩] := by
      have hMap := List.map_congr_left fun i hi => hOld i (List.mem_range.mp hi)
      rw [allocTable, allocTable, allocCount, hNumber, ofLeBytes_leBytes hMore, hCount,
        List.range_succ, List.map_append, List.map_singleton, hNew, hMap]
    rw [if_pos hRoom, gateOf, hTable, hUser _ (by decide), hUser _ (by decide)]
    rfl
  · rw [if_neg hRoom, entryWrites, if_neg hRoom]
    rfl

/-- A bit set in the flags of an entry. -/
def setFlags (e : AllocEntry) (bit : Nat) : AllocEntry :=
  { e with h2d := e.h2d || bit.testBit 0, freed := e.freed || bit.testBit 1 }

theorem flagsAt_orFlags {i bit : Nat} (hBit : bit < 2 ^ 32) :
    flagsAt (write m (orFlags m i bit)) i = flagsAt m i ||| bit := by
  have hOld : flagsAt m i < 2 ^ 32 := by
    have h := ofLeBytes_lt (read m (entryOff i + 16) 4)
    rwa [read_length] at h
  have hRead := read_write_self m (orFlags m i bit)
  rw [orFlags, leBytes_length] at hRead
  rw [flagsAt, orFlags, hRead]
  exact ofLeBytes_leBytes (Nat.or_lt_two_pow hOld hBit)

/-- The entry gets the bit, the others and their number stay. -/
theorem gateOf_orFlags {i bit : Nat} (hBit : bit < 2 ^ 32) :
    gateOf (write m (orFlags m i bit)) =
      { gateOf m with table := (List.range (allocCount m)).map fun j =>
          if i = j then setFlags (entryAt m j) bit else entryAt m j } := by
  have hOff : (orFlags m i bit).off = entryOff i + 16 := rfl
  have hStop : (orFlags m i bit).stop = entryOff i + 20 := by
    simp [Write.stop, orFlags]
  have hOutside : ∀ off n, off + n ≤ entryOff i + 16 ∨ entryOff i + 20 ≤ off →
      read (write m (orFlags m i bit)) off n = read m off n := by
    intro off n hApart
    refine read_congr fun a hLow hHigh => write_outside m ?_
    rw [hOff, hStop]
    omega
  have hCount : allocCount (write m (orFlags m i bit)) = allocCount m :=
    allocCount_congr (hOutside _ _ (.inl (by simp only [entryOff]; omega)))
  have hEntry (j : Nat) : entryAt (write m (orFlags m i bit)) j =
      if i = j then setFlags (entryAt m j) bit else entryAt m j := by
    split
    · rename_i hSame
      subst hSame
      rw [entryAt, hOutside _ _ (.inl (by omega)), hOutside _ _ (.inl (by omega)),
        flagsAt_orFlags hBit, Nat.testBit_or, Nat.testBit_or]
      rfl
    · refine entryAt_congr fun a hLow hHigh => write_outside m ?_
      rw [hOff, hStop]
      simp only [entryOff] at hLow hHigh ⊢
      omega
  have hTable : allocTable (write m (orFlags m i bit)) =
      (List.range (allocCount m)).map fun j =>
        if i = j then setFlags (entryAt m j) bit else entryAt m j := by
    rw [allocTable, hCount]
    exact List.map_congr_left fun j _ => hEntry j
  rw [gateOf, hTable, hOutside _ _ (.inl ?_), hOutside _ _ (.inl ?_)]
  · rfl
  · simp only [entryOff, userSizeOff, allocHdrOff]
    omega
  · simp only [entryOff, userVaOff, allocHdrOff]
    omega

/-- The first entry that meets a condition is changed. -/
def updateFirst (c : AllocEntry → Bool) (u : AllocEntry → AllocEntry) :
    List AllocEntry → List AllocEntry
  | [] => []
  | e :: rest => if c e then u e :: rest else e :: updateFirst c u rest

theorem flagFirst_eq (addr : Nat) :
    Static.flagFirst addr = updateFirst (·.Covers addr) fun e => { e with h2d := true } := by
  funext table
  induction table with
  | nil => rfl
  | cons e rest ih => simp only [Static.flagFirst, updateFirst, ih, decide_eq_true_eq]

theorem freeFirst_eq (va : Nat) :
    Static.freeFirst va =
      updateFirst (fun e => e.va = va ∧ e.freed = false) fun e => { e with freed := true } := by
  funext table
  induction table with
  | nil => rfl
  | cons e rest ih => simp only [Static.freeFirst, updateFirst, ih, decide_eq_true_eq]

/-- In a table of entries with different indices it is the one whose index is found. -/
theorem updateFirst_map (c : AllocEntry → Bool) (u : AllocEntry → AllocEntry)
    (f : Nat → AllocEntry) {indices : List Nat} (hNodup : indices.Nodup) :
    updateFirst c u (indices.map f) = indices.map fun j =>
      if indices.find? (fun i => c (f i)) = some j then u (f j) else f j := by
  induction indices with
  | nil => rfl
  | cons i rest ih =>
      obtain ⟨hNew, hRest⟩ := List.nodup_cons.mp hNodup
      rw [List.map_cons, updateFirst, List.map_cons, List.find?_cons]
      cases hFirst : c (f i) with
      | true =>
          rw [if_pos rfl, if_pos rfl]
          congr 1
          refine List.map_congr_left fun j hj => (if_neg ?_).symm
          rintro ⟨⟩
          exact hNew hj
      | false =>
          rw [if_neg (by decide), ih hRest, if_neg]
          exact fun hFound => hNew (List.mem_of_find?_eq_some hFound)

/-- The entry of the index found, if there is one, gets the bit. -/
theorem gateOf_found {found : Option Nat} {bit : Nat} {u : AllocEntry → AllocEntry}
    (hBit : bit < 2 ^ 32) (hSet : ∀ e, setFlags e bit = u e) :
    gateOf (writeAll m (orFound m bit found)) =
      { gateOf m with table := (List.range (allocCount m)).map fun j =>
          if found = some j then u (entryAt m j) else entryAt m j } := by
  cases found with
  | none => simp [writeAll, orFound, gateOf, allocTable]
  | some i =>
      have hWrite := gateOf_orFlags (m := m) (i := i) hBit
      simp only [hSet] at hWrite
      simp only [Option.some.injEq]
      exact hWrite

theorem gateOf_markH2d (addr : UInt64) :
    gateOf (writeAll m (markH2d m addr)) = (gateOf m).markH2dFlag addr.toNat := by
  have hFirst := updateFirst_map (·.Covers addr.toNat) (fun e => { e with h2d := true }) (entryAt m)
    (@List.nodup_range (allocCount m))
  have hTable : (gateOf m).table = (List.range (allocCount m)).map (entryAt m) := rfl
  have hSet (e : AllocEntry) : setFlags e 1 = { e with h2d := true } := by
    simp [setFlags, Nat.testBit]
  rw [markH2d, gateOf_found (by decide) hSet, Static.Gate.markH2dFlag, flagFirst_eq, hTable, hFirst]

/-- The walk from the end finds the last entry. -/
theorem gateOf_markFreed (va : UInt64) :
    gateOf (writeAll m (markFreed m va)) = (gateOf m).gateMarkFreed va.toNat := by
  rw [markFreed, Static.Gate.gateMarkFreed]
  by_cases hVa : va = 0
  · rw [if_pos hVa, if_pos (by simp [hVa])]
    rfl
  · have hNat : va.toNat ≠ 0 := fun hZero => hVa (UInt64.toNat_inj.mp hZero)
    have hFirst := updateFirst_map (fun e => e.va = va.toNat ∧ e.freed = false)
      (fun e => { e with freed := true }) (entryAt m)
      (List.pairwise_reverse.mpr ((@List.nodup_range (allocCount m)).imp Ne.symm))
    have hTable : (gateOf m).table = (List.range (allocCount m)).map (entryAt m) := rfl
    have hSet (e : AllocEntry) : setFlags e 2 = { e with freed := true } := by
      simp [setFlags, Nat.testBit]
    rw [if_neg hVa, if_neg hNat, gateOf_found (by decide) hSet, freeFirst_eq, hTable,
      ← List.map_reverse, hFirst, List.map_reverse, List.reverse_reverse]

/-- What the application records is what is read back. -/
theorem gateOf_recordAlloc (va size : UInt64) :
    gateOf (writeAll m (recordAlloc m va size)) = (gateOf m).gateRecordAlloc va.toNat size.toNat := by
  rw [recordAlloc, Static.Gate.gateRecordAlloc]
  by_cases hVa : va = 0
  · rw [if_pos hVa, if_pos (by simp [hVa])]
    rfl
  · have hNat : va.toNat ≠ 0 := fun hZero => hVa (UInt64.toNat_inj.mp hZero)
    have hUser := gateOf_user (m := m) va size
    have hCount : allocCount (writeAll m (userWrites m va size)) = allocCount m := by
      rw [← table_length, ← table_length, hUser]
      split <;> rfl
    have hSame : entryWrites m va size =
        entryWrites (writeAll m (userWrites m va size)) va size := by
      rw [entryWrites, entryWrites, hCount]
    have hSplit : writeAll m (userWrites m va size ++ entryWrites m va size) =
        writeAll (writeAll m (userWrites m va size)) (entryWrites m va size) := List.foldl_append
    rw [if_neg hVa, if_neg hNat, hSplit, hSame, gateOf_entry, hUser]

end Records

section Strings

variable {m : Image} {off : Nat}

theorem strlen_eq {n : Nat} (hInside : off + n < gateFileSize) (hBefore : ∀ i < n, m (off + i) ≠ 0)
    (hNul : m (off + n) = 0) : strlen m off = n := by
  have hLt : n < (List.range (gateFileSize - off)).length := by
    rw [List.length_range]
    omega
  rw [strlen, List.findIdx_eq hLt]
  simp only [List.getElem_range]
  exact ⟨decide_eq_true hNul, fun i hi => decide_eq_false (hBefore i hi)⟩

theorem strlen_spec (hInside : off + strlen m off < gateFileSize) :
    m (off + strlen m off) = 0 ∧ ∀ i < strlen m off, m (off + i) ≠ 0 := by
  have hLt : strlen m off < (List.range (gateFileSize - off)).length := by
    rw [List.length_range]
    omega
  have hFound := (List.findIdx_eq hLt).mp rfl
  simp only [List.getElem_range] at hFound
  exact ⟨of_decide_eq_true hFound.1, fun i hi => of_decide_eq_false (hFound.2 i hi)⟩

/-- A path stays as long as its bytes stay. -/
theorem strlen_congr {m' : Image} (hInside : off + strlen m off < gateFileSize)
    (h : ∀ a, off ≤ a → a ≤ off + strlen m off → m' a = m a) : strlen m' off = strlen m off := by
  obtain ⟨hNul, hBefore⟩ := strlen_spec hInside
  refine strlen_eq hInside (fun i hi => ?_) ?_
  · rw [h _ (by omega) (by omega)]
    exact hBefore i hi
  · rw [h _ (by omega) (by omega)]
    exact hNul

end Strings

section Bounds

variable {m : Image} {w : Write}

theorem recordAlloc_bounds {va size : UInt64} (hw : w ∈ recordAlloc m va size) :
    32 ≤ w.off ∧ w.stop ≤ 48 ∨
      (va ≠ 0 ∧ allocCount m < gateAllocMax) ∧ 512 ≤ w.off ∧ w.stop ≤ 65680 := by
  rw [recordAlloc] at hw
  split at hw
  · cases hw
  · rename_i hVa
    rcases List.mem_append.mp hw with hw | hw
    · left
      rw [userWrites] at hw
      split at hw
      · simp only [List.mem_cons, List.not_mem_nil, or_false] at hw
        rcases hw with rfl | rfl <;> simp [Write.stop, userVaOff, userSizeOff]
      · cases hw
    · right
      rw [entryWrites] at hw
      split at hw
      · rename_i hRoom
        refine ⟨⟨hVa, hRoom⟩, ?_⟩
        simp only [gateAllocMax] at hRoom
        simp only [List.mem_cons, List.not_mem_nil, or_false] at hw
        rcases hw with rfl | rfl | rfl | rfl | rfl <;>
          (simp [Write.stop, entryOff, allocHdrOff]; try omega)
      · cases hw

theorem orFound_bounds {bit : Nat} {found : Option Nat} (hFound : ∀ i ∈ found, i < gateAllocMax)
    (hw : w ∈ orFound m bit found) : 536 ≤ w.off ∧ w.stop ≤ 65680 := by
  obtain ⟨i, hi, rfl⟩ := List.mem_map.mp hw
  have hLt := hFound i (Option.mem_toList.mp hi)
  simp only [gateAllocMax] at hLt
  simp only [orFlags, Write.stop, leBytes_length, entryOff, allocHdrOff]
  omega

theorem markH2d_bounds {addr : UInt64} (hCount : allocCount m ≤ gateAllocMax)
    (hw : w ∈ markH2d m addr) : 536 ≤ w.off ∧ w.stop ≤ 65680 := by
  refine orFound_bounds (fun i hi => ?_) hw
  have hLt := List.mem_range.mp (List.mem_of_find?_eq_some hi)
  omega

theorem markFreed_bounds {va : UInt64} (hCount : allocCount m ≤ gateAllocMax)
    (hw : w ∈ markFreed m va) : 536 ≤ w.off ∧ w.stop ≤ 65680 := by
  rw [markFreed] at hw
  split at hw
  · cases hw
  · refine orFound_bounds (fun i hi => ?_) hw
    have hLt := List.mem_range.mp (List.mem_reverse.mp (List.mem_of_find?_eq_some hi))
    omega

theorem dirtyTable_bounds {ranges : List (Nat × Nat)} (hw : w ∈ dirtyTable ranges) :
    131072 ≤ w.off ∧ w.stop ≤ gateFileSize := by
  rcases List.mem_append.mp hw with hw | hw
  · obtain ⟨r, hr, hw⟩ := List.mem_flatMap.mp hw
    have hLt := List.snd_lt_of_mem_zipIdx hr
    rw [List.length_take] at hLt
    simp only [Agent.gateDirtyMax] at hLt
    simp only [List.mem_cons, List.not_mem_nil, or_false] at hw
    rcases hw with rfl | rfl <;>
      (simp [Write.stop, dirtyOff, dirtyHdrOff, gateFileSize]; omega)
  · cases List.mem_singleton.mp hw
    simp [Write.stop, dirtyHdrOff, gateFileSize]

theorem store_bounds (field : Field) (value : Nat) :
    (field.store value).stop ≤ 32 ∨ 48 ≤ (field.store value).off ∧ (field.store value).stop ≤ 88 ∨
      344 ≤ (field.store value).off ∧ (field.store value).stop ≤ 376 := by
  simp only [Field.store, Write.stop, leBytes_length]
  cases field <;> decide

theorem print_length (path : Path) : (Requests.snprintfPath path.bytes).length ≤ 255 := by
  rw [Requests.snprintfPath, List.length_take]
  omega

theorem print_stop (path : Path) (off : Nat) :
    (path.print off).stop = off + (Requests.snprintfPath path.bytes).length + 1 := by
  simp [Path.print, Write.stop, Nat.add_assoc]

/-- A request writes scalars and its path. -/
theorem request_writes {op : Op} (hRegion : op.region = .request) (hw : w ∈ op.writes m) :
    (∃ field value, w = Field.store field value) ∨
      (∃ path, op = .deltaRequest path ∧ w = path.print deltaPathOff) ∨
      ∃ path precopy mstreams, op = .baselineRequest path precopy mstreams ∧
        w = path.print baselinePathOff := by
  cases op with
  | store field value => exact .inl ⟨field, value, List.mem_singleton.mp hw⟩
  | deltaRequest path =>
      simp only [Op.writes, List.mem_cons, List.not_mem_nil, or_false] at hw
      rcases hw with rfl | rfl | rfl | rfl | rfl
      · exact .inr (.inl ⟨path, rfl, rfl⟩)
      all_goals exact .inl ⟨_, _, rfl⟩
  | baselineRequest path precopy mstreams =>
      rcases List.mem_append.mp hw with hw | hw
      · rcases List.mem_append.mp hw with hw | hw
        · simp only [List.mem_cons, List.not_mem_nil, or_false] at hw
          rcases hw with rfl | rfl | rfl | rfl | rfl
          · exact .inr (.inr ⟨path, precopy, mstreams, rfl, rfl⟩)
          all_goals exact .inl ⟨_, _, rfl⟩
        · cases precopy with
          | false => cases hw
          | true => exact .inl ⟨_, _, List.mem_singleton.mp hw⟩
      · exact .inl ⟨_, _, List.mem_singleton.mp hw⟩
  | recordAlloc | markFreed | markH2d | dirtyTable => cases hRegion

theorem print_bounds (path : Path) :
    (path.print baselinePathOff).off = 88 ∧ (path.print baselinePathOff).stop ≤ 344 ∧
      (path.print deltaPathOff).off = 376 := by
  have := print_length path
  refine ⟨rfl, ?_, rfl⟩
  rw [print_stop]
  simp only [baselinePathOff]
  omega

/-- Besides a delta path, a request keeps to `ckpt_gate_t` in front of the delta path. -/
theorem request_bounds {op : Op} (hRegion : op.region = .request) (hw : w ∈ op.writes m) :
    (∃ path, op = .deltaRequest path ∧ w = path.print deltaPathOff) ∨ w.stop ≤ 32 ∨
      48 ≤ w.off ∧ w.stop ≤ 376 := by
  rcases request_writes hRegion hw with ⟨field, value, rfl⟩ | hDelta | ⟨path, _, _, -, rfl⟩
  · have := store_bounds field value
    omega
  · exact .inl hDelta
  · have := print_bounds path
    omega

end Bounds

/-- The table is the one recorded, and the paths end before the table's entries. -/
structure Inv (s : State) : Prop where
  recorded : gateOf s.image = s.recorded
  room : allocCount s.image ≤ gateAllocMax
  baselinePath : strlen s.image baselinePathOff ≤ 255
  deltaPath : strlen s.image deltaPathOff ≤ 139

section Steps

variable {s : State} {a : Nat}

theorem Inv.count (h : Inv s) : s.recorded.table.length = allocCount s.image := by
  rw [← h.recorded, table_length]

theorem Inv.request (h : Inv s) (ha : Occupied s.image .request a) :
    a < 32 ∨ 48 ≤ a ∧ a ≤ 376 + strlen s.image deltaPathOff := by
  have := h.baselinePath
  simp only [Occupied, userVaOff, baselinePathOff, deltaPathOff] at ha this ⊢
  omega

theorem Inv.allocs (h : Inv s) (ha : Occupied s.image .allocs a) :
    32 ≤ a ∧ a < 48 ∨ 512 ≤ a ∧ a < 516 ∨ 520 ≤ a ∧ a < 65680 := by
  have := h.room
  simp only [Occupied, userVaOff, allocHdrOff, entryOff, gateAllocMax] at ha this
  omega

theorem dirty_le (ha : Occupied s.image .dirty a) : 131072 ≤ a := by
  simp only [Occupied, dirtyHdrOff, dirtyOff] at ha
  omega

/-- The operations on the table keep behind a delta path that lets them fit. -/
theorem table_bounds (hInv : Inv s) {op : Op} (hFits : Fits s op) (hRegion : op.region = .allocs)
    {w : Write} (hw : w ∈ op.writes s.image) :
    32 ≤ w.off ∧ w.stop ≤ 48 ∨ 376 + strlen s.image deltaPathOff < w.off ∧ w.stop ≤ 65680 := by
  have hDelta := hInv.deltaPath
  cases op with
  | recordAlloc va size =>
      rcases recordAlloc_bounds hw with hUser | ⟨⟨hVa, hRoom⟩, hOff, hStop⟩
      · exact .inl hUser
      · rcases hFits with hZero | hFull | hShort
        · exact absurd hZero hVa
        · rw [hInv.count] at hFull
          omega
        · simp only [allocHdrOff, deltaPathOff] at hShort ⊢
          omega
  | markFreed va =>
      have := markFreed_bounds hInv.room hw
      omega
  | markH2d addr =>
      have := markH2d_bounds hInv.room hw
      omega
  | _ => cases hRegion

/-- An operation that fits is not near the bytes of the other regions, but for a delta
path of the length that reaches the count. -/
theorem apart_of_fits (hInv : Inv s) {op : Op} (hFits : Fits s op) {r : Region}
    (hOther : r ≠ op.region) (ha : Occupied s.image r a) {w : Write} (hw : w ∈ op.writes s.image)
    (hPath : ∀ path, op = .deltaRequest path → w = path.print deltaPathOff →
      a < w.off ∨ w.stop ≤ a) : a < w.off ∨ w.stop ≤ a := by
  have hDelta := hInv.deltaPath
  cases hRegion : op.region with
  | request =>
      rcases request_bounds hRegion hw with ⟨path, hOp, hPrint⟩ | hBounds
      · exact hPath path hOp hPrint
      · cases r with
        | request => exact absurd hRegion.symm hOther
        | allocs =>
            have := hInv.allocs ha
            omega
        | dirty =>
            have := dirty_le ha
            omega
  | dirty =>
      cases op with
      | dirtyTable ranges =>
          have hBounds := dirtyTable_bounds hw
          cases r with
          | request =>
              have := hInv.request ha
              omega
          | allocs =>
              have := hInv.allocs ha
              omega
          | dirty => exact absurd hRegion.symm hOther
      | _ => cases hRegion
  | allocs =>
      have hBounds := table_bounds hInv hFits hRegion hw
      cases r with
      | allocs => exact absurd hRegion.symm hOther
      | dirty =>
          have := dirty_le ha
          omega
      | request =>
          have := hInv.request ha
          omega

theorem gateOf_congr {m m' : Image} (h : ∀ a, Occupied m .allocs a → m' a = m a) :
    gateOf m' = gateOf m := by
  have hRead : ∀ off n, (∀ a, off ≤ a → a < off + n → Occupied m .allocs a) →
      read m' off n = read m off n :=
    fun off n hInside => read_congr fun a hLow hHigh => h a (hInside a hLow hHigh)
  have hVa := hRead userVaOff 8 fun a hLow hHigh => .inl ⟨hLow, by
    simp only [userVaOff] at hHigh
    omega⟩
  have hSize := hRead userSizeOff 8 fun a hLow hHigh => .inl ⟨by
    simp only [userSizeOff, userVaOff] at hLow ⊢
    omega, hHigh⟩
  have hCount := hRead allocHdrOff 4 fun a hLow hHigh => .inr (.inl ⟨hLow, hHigh⟩)
  have hTable := allocTable_congr hCount fun a hLow hHigh => h a (.inr (.inr ⟨hLow, hHigh⟩))
  rw [gateOf, gateOf, hVa, hSize, hTable]

/-- The operations on the table do to it what was recorded, and the others leave it. -/
theorem after_recorded (hInv : Inv s) {op : Op}
    (hFrame : op.region ≠ .allocs → ∀ a, Occupied s.image .allocs a →
      (after s op).image a = s.image a) : gateOf (after s op).image = (after s op).recorded := by
  have hOther (hRegion : op.region ≠ .allocs) : gateOf (after s op).image = s.recorded :=
    (gateOf_congr (hFrame hRegion)).trans hInv.recorded
  cases op with
  | recordAlloc va size =>
      rw [after, Op.record, ← hInv.recorded]
      exact gateOf_recordAlloc va size
  | markFreed va =>
      rw [after, Op.record, ← hInv.recorded]
      exact gateOf_markFreed va
  | markH2d addr =>
      rw [after, Op.record, ← hInv.recorded]
      exact gateOf_markH2d addr
  | baselineRequest path precopy mstreams => exact hOther (nomatch ·)
  | deltaRequest path => exact hOther (nomatch ·)
  | dirtyTable ranges => exact hOther (nomatch ·)
  | store field value => exact hOther (nomatch ·)

end Steps

section DeltaPath

variable {s : State} (path : Path)

/-- The bytes of the paths after a request with one of them: what follows it are scalars. -/
theorem print_image {w : Write} {rest : List Write}
    (hRest : ∀ v ∈ rest, ∃ field value, v = Field.store field value) {a : Nat}
    (ha : 88 ≤ a ∧ a < 344 ∨ 376 ≤ a) : writeAll s.image (w :: rest) a = write s.image w a := by
  refine writeAll_outside (write s.image w) fun v hv => ?_
  obtain ⟨field, value, rfl⟩ := hRest v hv
  have := store_bounds field value
  omega

theorem delta_image {a : Nat} (ha : deltaPathOff ≤ a) :
    (after s (.deltaRequest path)).image a = write s.image (path.print deltaPathOff) a := by
  refine print_image (fun v hv => ?_) (.inr ha)
  simp only [List.mem_cons, List.not_mem_nil, or_false] at hv
  rcases hv with rfl | rfl | rfl | rfl <;> exact ⟨_, _, rfl⟩

theorem baseline_image {precopy : Bool} {mstreams a : Nat} (hLow : 88 ≤ a) (hHigh : a < 344) :
    (after s (.baselineRequest path precopy mstreams)).image a =
      write s.image (path.print baselinePathOff) a := by
  refine print_image (fun v hv => ?_) (.inl ⟨hLow, hHigh⟩)
  rcases List.mem_append.mp hv with hv | hv
  · rcases List.mem_append.mp hv with hv | hv
    · simp only [List.mem_cons, List.not_mem_nil, or_false] at hv
      rcases hv with rfl | rfl | rfl | rfl <;> exact ⟨_, _, rfl⟩
    · cases precopy with
      | false => cases hv
      | true => exact ⟨_, _, List.mem_singleton.mp hv⟩
  · exact ⟨_, _, List.mem_singleton.mp hv⟩

theorem delta_read {start n : Nat}
    (hInside : start + n ≤ (Requests.snprintfPath path.bytes).length + 1) :
    read (after s (.deltaRequest path)).image (deltaPathOff + start) n =
      ((Requests.snprintfPath path.bytes ++ [0]).drop start).take n := by
  have hLength : (path.print deltaPathOff).bytes.length =
      (Requests.snprintfPath path.bytes).length + 1 := by
    simp [Path.print]
  have hSelf : read (write s.image (path.print deltaPathOff)) deltaPathOff
      ((Requests.snprintfPath path.bytes).length + 1) = Requests.snprintfPath path.bytes ++ [0] := by
    rw [← hLength]
    exact read_write_self s.image (path.print deltaPathOff)
  have hSame : read (after s (.deltaRequest path)).image (deltaPathOff + start) n =
      read (write s.image (path.print deltaPathOff)) (deltaPathOff + start) n :=
    read_congr fun a hLow _ => delta_image path (by omega)
  rw [hSame, ← hSelf, read_slice _ hInside]

theorem print_noNul : 0 ∉ Requests.snprintfPath path.bytes :=
  fun hMem => path.noNul (List.mem_of_mem_take hMem)

/-- The count is small, so at most two bytes of a path can be some of its bytes. -/
theorem fits_iff {count : Bytes} (hCount : count.length = 4) (hRoom : ofLeBytes count ≤ gateAllocMax)
    (hLong : 136 ≤ (Requests.snprintfPath path.bytes).length) :
    path.Fits (ofLeBytes count) ↔
      (Requests.snprintfPath path.bytes ++ [0]).drop 136 =
        count.take ((Requests.snprintfPath path.bytes).length - 135) := by
  rw [Path.Fits, show allocHdrOff - deltaPathOff = 136 from rfl]
  have hNul := print_noNul path
  generalize Requests.snprintfPath path.bytes = p at hLong hNul ⊢
  have hEnd : (p ++ [0]).drop 136 = p.drop 136 ++ [0] := List.drop_append_of_le_length hLong
  have hValue : ofLeBytes (p.drop 136 ++ [0]) = ofLeBytes (p.drop 136) := by
    simp [ofLeBytes_append, ofLeBytes]
  have hPower : p.length + 1 - 136 = p.length - 135 := by omega
  rw [hEnd, hPower, or_iff_right (by omega)]
  constructor
  · intro hSame
    have hLarge : 256 ^ (p.drop 136).length ≤ 256 * ofLeBytes (p.drop 136) + 1 :=
      ofLeBytes_le fun hMem => hNul (List.mem_of_mem_drop hMem)
    have hLe := Nat.mod_le (ofLeBytes count) (256 ^ (p.length - 135))
    have hShort : (p.drop 136).length < 3 := by
      refine (Nat.pow_lt_pow_iff_right (a := 256) (by decide)).mp ?_
      simp only [gateAllocMax] at hRoom
      omega
    rw [List.length_drop] at hShort
    refine ofLeBytes_injective ?_ ?_
    · simp only [List.length_append, List.length_drop, List.length_take, List.length_singleton]
      omega
    · rw [hValue, hSame, ofLeBytes_take (by omega)]
  · intro hSame
    have hLength := congrArg List.length hSame
    simp only [List.length_append, List.length_drop, List.length_take, List.length_singleton]
      at hLength
    rw [← hValue, hSame, ofLeBytes_take (by omega)]

/-- The bytes of the count stay exactly when they are those of the path. -/
theorem delta_count_iff (hInv : Inv s) (hLong : 136 ≤ (Requests.snprintfPath path.bytes).length) :
    (∀ a, 512 ≤ a → a < 516 → (after s (.deltaRequest path)).image a = s.image a) ↔
      path.Fits (allocCount s.image) := by
  have hCount : (read s.image allocHdrOff 4).length = 4 := read_length ..
  have hNul := print_noNul path
  have hWritten (n : Nat) (hn : n ≤ (Requests.snprintfPath path.bytes).length - 135) :
      read (after s (.deltaRequest path)).image 512 n =
        ((Requests.snprintfPath path.bytes ++ [0]).drop 136).take n := by
    have hInside : 136 + n ≤ (Requests.snprintfPath path.bytes).length + 1 := by omega
    exact delta_read path hInside
  have hOld (n : Nat) (hn : 0 + n ≤ 4) :
      read s.image 512 n = (read s.image allocHdrOff 4).take n := (read_slice s.image hn).symm
  have hBehind {a : Nat} (ha : 376 + (Requests.snprintfPath path.bytes).length < a) :
      (after s (.deltaRequest path)).image a = s.image a := by
    rw [delta_image path (by simp only [deltaPathOff]; omega)]
    refine write_outside s.image (.inr ?_)
    rw [print_stop]
    simp only [deltaPathOff]
    omega
  have hRoom : ofLeBytes (read s.image allocHdrOff 4) ≤ 2715 := hInv.room
  rw [allocCount, fits_iff path hCount hInv.room hLong]
  generalize Requests.snprintfPath path.bytes = p at *
  constructor
  · intro hFrame
    have hBytes (n : Nat) (hn : n ≤ p.length - 135) (hFour : n ≤ 4) :
        ((p ++ [0]).drop 136).take n = (read s.image allocHdrOff 4).take n := by
      rw [← hWritten n hn, ← hOld n (by omega)]
      exact read_congr fun a hLow hHigh => hFrame a hLow (by omega)
    have hShort : p.length - 135 ≤ 3 := by
      by_contra hMore
      have hThree := hBytes 3 (by omega) (by omega)
      rw [List.drop_append_of_le_length hLong, List.take_append_of_le_length
        (by rw [List.length_drop]; omega)] at hThree
      have hLarge : 256 ^ ((p.drop 136).take 3).length ≤ 256 * ofLeBytes ((p.drop 136).take 3) + 1 :=
        ofLeBytes_le fun hMem => hNul (List.mem_of_mem_drop (List.mem_of_mem_take hMem))
      have hSize : ((p.drop 136).take 3).length = 3 := by
        rw [List.length_take, List.length_drop]
        omega
      rw [hSize, hThree, ofLeBytes_take (by omega)] at hLarge
      omega
    have hAll := hBytes (p.length - 135) (Nat.le_refl _) (by omega)
    rwa [List.take_of_length_le (by simp)] at hAll
  · intro hSame a hLow hHigh
    by_cases hInside : a < 512 + (p.length - 135)
    · have hSize := congrArg List.length hSame
      simp only [List.length_append, List.length_drop, List.length_take, List.length_singleton]
        at hSize
      have hRead := hWritten (p.length - 135) (Nat.le_refl _)
      rw [hSame, List.take_take, Nat.min_self, ← hOld _ (by omega)] at hRead
      exact read_eq_iff.mp hRead a hLow hInside
    · exact hBehind (by omega)

theorem fits_length {count : Bytes} (hCount : count.length = 4)
    (hRoom : ofLeBytes count ≤ gateAllocMax) (hFits : path.Fits (ofLeBytes count)) :
    (Requests.snprintfPath path.bytes).length ≤ 139 := by
  by_contra hLong
  have hBytes := congrArg List.length ((fits_iff path hCount hRoom (by omega)).mp hFits)
  simp only [List.length_append, List.length_drop, List.length_take, List.length_singleton] at hBytes
  omega

/-- A path that was printed is read back with its length. -/
theorem strlen_print {m m' : Image} {off : Nat} (hInside : off + 256 ≤ gateFileSize)
    (h : ∀ a, off ≤ a → a ≤ off + (Requests.snprintfPath path.bytes).length →
      m' a = write m (path.print off) a) :
    strlen m' off = (Requests.snprintfPath path.bytes).length := by
  have hLength := print_length path
  have hByte (i : Nat) (hi : i ≤ (Requests.snprintfPath path.bytes).length) :
      m' (off + i) = (Requests.snprintfPath path.bytes ++ [0]).getD i 0 := by
    have hIn : (path.print off).off ≤ off + i ∧ off + i < (path.print off).stop := by
      rw [print_stop]
      exact ⟨Nat.le_add_right off i, by omega⟩
    rw [h _ (by omega) (by omega), write, if_pos hIn]
    simp only [Path.print, Nat.add_sub_cancel_left]
  refine strlen_eq (by omega) (fun i hi hZero => ?_) ?_
  · rw [hByte i (by omega), List.getD_append _ _ _ _ hi, List.getD_eq_getElem _ _ hi] at hZero
    exact print_noNul path (hZero ▸ List.getElem_mem hi)
  · rw [hByte _ (Nat.le_refl _), List.getD_append_right _ _ _ _ (Nat.le_refl _), Nat.sub_self]
    rfl

end DeltaPath

section Isolation

variable {s : State}

/-- An operation that fits leaves the bytes of the other regions. -/
theorem frame_of_fits (hInv : Inv s) {op : Op} (hFits : Fits s op) {r : Region}
    (hOther : r ≠ op.region) {a : Nat} (ha : Occupied s.image r a) :
    (after s op).image a = s.image a := by
  cases op with
  | deltaRequest path =>
      have hCount : path.Fits (allocCount s.image) := by
        rw [← hInv.count]
        exact hFits
      have hLength := fits_length path (read_length ..) hInv.room hCount
      by_cases hNear : 512 ≤ a ∧ a < 516 ∧ 136 ≤ (Requests.snprintfPath path.bytes).length
      · exact (delta_count_iff path hInv hNear.2.2).mpr hCount a hNear.1 hNear.2.1
      · refine writeAll_outside _ fun w hw => apart_of_fits hInv hFits hOther ha hw ?_
        intro path' hOp hPrint
        cases hOp
        rw [hPrint, print_stop]
        simp only [Path.print, deltaPathOff]
        cases r with
        | request => exact absurd rfl hOther
        | allocs =>
            have := hInv.allocs ha
            omega
        | dirty =>
            have := dirty_le ha
            omega
  | _ =>
      refine writeAll_outside _ fun w hw => apart_of_fits hInv hFits hOther ha hw ?_
      intro path hOp
      cases hOp

/-- A count cannot grow by one without its first byte. -/
theorem allocCount_mod (m : Image) : allocCount m % 256 = (m allocHdrOff).toNat := by
  have hBytes : read m allocHdrOff 4 =
      m allocHdrOff :: [m (allocHdrOff + 1), m (allocHdrOff + 2), m (allocHdrOff + 3)] := rfl
  have hByte : (m allocHdrOff).toNat < 256 := (m allocHdrOff).toNat_lt
  rw [allocCount, hBytes, ofLeBytes, Nat.add_mul_mod_self_left, Nat.mod_eq_of_lt hByte]

theorem gateRecordAlloc_length (g : Static.Gate) (va size : Nat) :
    (g.gateRecordAlloc va size).table.length =
      g.table.length + if va ≠ 0 ∧ g.table.length < gateAllocMax then 1 else 0 := by
  rw [Static.Gate.gateRecordAlloc]
  by_cases hVa : va = 0
  · simp [hVa]
  · by_cases hUser : g.userSize < size
    · by_cases hRoom : g.table.length < gateAllocMax <;> simp [hVa, hUser, hRoom]
    · by_cases hRoom : g.table.length < gateAllocMax <;> simp [hVa, hUser, hRoom]

theorem record_length {g : Static.Gate} (h : g.table.length ≤ gateAllocMax) (op : Op) :
    (op.record g).table.length ≤ gateAllocMax := by
  cases op with
  | recordAlloc va size =>
      rw [Op.record, gateRecordAlloc_length]
      split
      · rename_i hGrows
        exact hGrows.2
      · exact h
  | markFreed va =>
      rw [Op.record, ← (Static.updated_gateMarkFreed g va.toNat).length_eq]
      exact h
  | markH2d addr =>
      have hLength := (Static.updated_flagFirst addr.toNat g.table).length_eq
      rw [Op.record, Static.Gate.markH2dFlag, ← hLength]
      exact h
  | baselineRequest | deltaRequest | dirtyTable | store => exact h

theorem fits_of_isolated (hInv : Inv s) {op : Op} (h : Isolated s op) : Fits s op := by
  obtain ⟨hFrame, hRecorded⟩ := h
  cases op with
  | deltaRequest path =>
      by_cases hShort : (Requests.snprintfPath path.bytes).length < 136
      · exact .inl hShort
      · rw [Fits, hInv.count, ← delta_count_iff path hInv (by omega)]
        intro a hLow hHigh
        exact hFrame .allocs (nomatch ·) a (.inr (.inl ⟨hLow, hHigh⟩))
  | recordAlloc va size =>
      by_contra hNot
      simp only [Fits, not_or, Nat.not_le, Nat.not_lt] at hNot
      obtain ⟨hVa, hRoom, hLong⟩ := hNot
      have hSame : (after s (.recordAlloc va size)).image allocHdrOff = s.image allocHdrOff := by
        refine hFrame .request (nomatch ·) allocHdrOff (.inr (.inr ?_))
        simp only [allocHdrOff, deltaPathOff] at hLong ⊢
        omega
      have hGrows : allocCount (after s (.recordAlloc va size)).image = allocCount s.image + 1 := by
        rw [← table_length, hRecorded, ← hInv.count]
        have hNat : va.toNat ≠ 0 := fun hZero => hVa (UInt64.toNat_inj.mp hZero)
        exact (gateRecordAlloc_length _ _ _).trans (by rw [if_pos ⟨hNat, hRoom⟩])
      have hBefore := allocCount_mod s.image
      have hAfter := allocCount_mod (after s (.recordAlloc va size)).image
      rw [hSame, hGrows] at hAfter
      omega
  | markFreed | markH2d | baselineRequest | dirtyTable | store => trivial

theorem isolated_iff (hInv : Inv s) (op : Op) : Isolated s op ↔ Fits s op := by
  constructor
  · exact fits_of_isolated hInv
  · intro hFits
    exact ⟨fun r hOther a ha => frame_of_fits hInv hFits hOther ha,
      after_recorded hInv fun hRegion a ha => frame_of_fits hInv hFits (Ne.symm hRegion) ha⟩

/-- A path stays when no operation on the paths is made and its bytes are in their region. -/
theorem strlen_after (hInv : Inv s) {op : Op} (hFits : Fits s op) {off : Nat}
    (hInside : off + strlen s.image off < gateFileSize)
    (hPath : ∀ a, off ≤ a → a ≤ off + strlen s.image off → Occupied s.image .request a)
    (hWrites : op.region = .request → ∀ w ∈ op.writes s.image,
      w.stop ≤ off ∨ off + strlen s.image off < w.off) :
    strlen (after s op).image off = strlen s.image off := by
  refine strlen_congr hInside fun a hLow hHigh => ?_
  by_cases hRegion : op.region = .request
  · refine writeAll_outside s.image fun w hw => ?_
    have := hWrites hRegion w hw
    omega
  · exact frame_of_fits hInv hFits (Ne.symm hRegion) (hPath a hLow hHigh)

/-- The invariant after an operation that fits. -/
theorem inv_after (hInv : Inv s) {op : Op} (hFits : Fits s op) : Inv (after s op) := by
  have hIsolated := (isolated_iff hInv op).mpr hFits
  have hBase := hInv.baselinePath
  have hDelta := hInv.deltaPath
  refine ⟨hIsolated.2, ?_, ?_, ?_⟩
  · rw [← table_length, hIsolated.2]
    refine record_length ?_ op
    rw [hInv.count]
    exact hInv.room
  · by_cases hOp : ∃ path precopy mstreams, op = .baselineRequest path precopy mstreams
    · obtain ⟨path, precopy, mstreams, rfl⟩ := hOp
      rw [strlen_print path (by decide) fun a hLow hHigh => baseline_image path hLow ?_]
      · exact print_length path
      · have := print_length path
        simp only [baselinePathOff] at hHigh
        omega
    · rw [strlen_after hInv hFits]
      · exact hBase
      · simp only [baselinePathOff, gateFileSize] at hBase ⊢
        omega
      · intro a hLow hHigh
        simp only [Occupied, baselinePathOff] at hLow hHigh ⊢
        omega
      · intro hRegion w hw
        simp only [baselinePathOff] at hBase ⊢
        rcases request_writes hRegion hw with ⟨field, value, rfl⟩ | ⟨path, -, rfl⟩ | hBaseline
        · have := store_bounds field value
          omega
        · have := print_bounds path
          omega
        · obtain ⟨path, precopy, mstreams, hSame, -⟩ := hBaseline
          exact absurd ⟨path, precopy, mstreams, hSame⟩ hOp
  · by_cases hOp : ∃ path, op = .deltaRequest path
    · obtain ⟨path, rfl⟩ := hOp
      rw [strlen_print path (by decide) fun a hLow _ => delta_image path hLow]
      refine fits_length path (read_length ..) hInv.room ?_
      rw [show ofLeBytes _ = allocCount s.image from rfl, ← hInv.count]
      exact hFits
    · rw [strlen_after hInv hFits]
      · exact hDelta
      · simp only [deltaPathOff, gateFileSize] at hDelta ⊢
        omega
      · intro a hLow hHigh
        simp only [Occupied, deltaPathOff] at hLow hHigh ⊢
        omega
      · intro hRegion w hw
        simp only [deltaPathOff] at hDelta ⊢
        rcases request_bounds hRegion hw with ⟨path, hSame, -⟩ | hBounds
        · exact absurd ⟨path, hSame⟩ hOp
        · omega

end Isolation

theorem inv_start : Inv start := by
  have hZero (off : Nat) (h : off < gateFileSize) : strlen start.image off = 0 :=
    strlen_eq h (fun i hi => absurd hi (Nat.not_lt_zero i)) rfl
  refine ⟨rfl, ?_, ?_, ?_⟩
  · exact Nat.zero_le _
  · rw [hZero _ (by decide)]
    exact Nat.zero_le _
  · rw [hZero _ (by decide)]
    exact Nat.zero_le _

/-- The regions of the gate do not interfere exactly as long as each delta path fits. -/
theorem isolated_along_iff (ops : List Op) :
    Along next Isolated start ops ↔ Along next Fits start ops := by
  constructor
  · refine along_of_invariant (fun s op t hOk hInv hNext => ?_)
      (fun s op t hOk hInv _ => fits_of_isolated hInv hOk) ops start inv_start
    cases hNext
    exact inv_after hInv (fits_of_isolated hInv hOk)
  · refine along_of_invariant (fun s op t hOk hInv hNext => ?_)
      (fun s op t hOk hInv _ => (isolated_iff hInv op).mpr hOk) ops start inv_start
    cases hNext
    exact inv_after hInv hOk

/-- One allocation, and a delta path of 200 characters. -/
def longPath : List Op :=
  [.recordAlloc 4096 4096, .deltaRequest ⟨List.replicate 200 97, by decide⟩]

theorem not_isolated_longPath : ¬Along next Isolated start longPath := by
  intro h
  obtain ⟨-, hRest⟩ := h _ rfl
  obtain ⟨hIsolated, -⟩ := hRest _ rfl
  have hByte := hIsolated.1 .allocs (nomatch ·) 512 (.inr (.inl ⟨by decide, by decide⟩))
  exact absurd hByte (by decide +kernel)

end FlashCkpt.Gate.Layout
