import FlashCkpt.Core.K3Counter
import FlashCkpt.Emul.AllocTable

/-! The counters of the page encryptions in PHOS. `run_pingpong` numbers the pages of its
chunks from a base: 0 in Phase 2, the number of snapshot entries times 4096 in Phase 4. The
key is made in round 0. -/
namespace FlashCkpt.Emul.Phos

open ByteImage (Bytes)
open Crypto FlashCkpt.Core

/-- `CKPT_CRYPTO_PAGE_SIZE` of this build. -/
def pageSize : Nat := 2 * 1024 * 1024

/-- `g_staging_want`: some megabytes. -/
structure Staging where
  bytes : Nat
  large : 2 ^ 20 ≤ bytes

theorem Staging.least : 2 ^ 20 ≤ 2 ^ 20 := Nat.le_refl _

/-- `snap_ent_t`. -/
structure SnapEnt extends Region where
  idx : Nat
  deriving DecidableEq, Repr

/-- `snapshot_live_allocs`. -/
def snapshotLiveAllocs (allocs : List (Alloc PhosFlags)) : List SnapEnt :=
  allocs.zipIdx.filterMap fun (e, i) => if e.alive then some ⟨e.toRegion, i⟩ else none

/-- `phos_chunk_t`. -/
structure Chunk extends Region where
  imgOff : Nat
  deriving DecidableEq, Repr

/-- The chunks of one entry from `off` on. -/
def entryChunks (staging : Nat) (va size imgBase : Nat) : (fuel off : Nat) → List Chunk
  | 0, _ => []
  | fuel + 1, off =>
      if off < size then
        let chunk := if staging < size - off then staging else size - off
        ⟨⟨va + off, chunk⟩, imgBase + off⟩ :: entryChunks staging va size imgBase fuel (off + chunk)
      else []

/-- `build_chunks`: entries that are clean (in Phase 4), retired or without a slot are left
out. -/
def buildChunks (allocs : List (Alloc PhosFlags)) (snaps : List SnapEnt) (staging : Nat)
    (dirtyOnly : Bool) : List Chunk :=
  snaps.flatMap fun snap =>
    match allocs[snap.idx]? with
    | none => []
    | some e =>
        if (dirtyOnly && !e.flags.dirtyThisRound) || !e.alive then []
        else
          match e.imgOffset with
          | none => []
          | some off => entryChunks staging snap.va snap.size off snap.size 0

/-- `np`, a 32-bit number. -/
def pages (size : Nat) : Nat := (size + pageSize - 1) / pageSize % 2 ^ 32

/-- The pages that `run_pingpong` hands to the encryption; `host` is what the buffer of a
chunk holds. -/
def runPingpong (key : Bytes) (host : Chunk → Bytes) (online : Int) :
    List Chunk → (iv : Nat) → List Handed
  | [], _ => []
  | c :: rest, iv =>
      encryptPages key (host c) (pages c.size) pageSize iv 0 online ++
        runPingpong key host online rest (iv + pages c.size)

/-- What one phase of a round meets: the table that `build_chunks` reads, whether it gets
its buffers, stream, events and consumer, and after how many chunks a copy fails. -/
structure Phase where
  allocs : List (Alloc PhosFlags)
  ready : Bool
  copied : Nat
  host : Chunk → Bytes

/-- A checkpoint round. `random` is what `RAND_bytes` gives for a key. -/
structure Round where
  random : Option Bytes
  snapshot : List (Alloc PhosFlags)
  room : snapshot.length ≤ phos.maxAllocs
  sizes : ∀ e ∈ snapshot, e.size < 2 ^ 64
  phase2 : Phase
  phase4 : Phase
  online : Int

namespace Round

variable (staging : Staging) (r : Round)

def snaps : List SnapEnt := snapshotLiveAllocs r.snapshot

/-- The chunks that a phase copies before one fails. -/
def copied (p : Phase) (dirtyOnly : Bool) : List Chunk :=
  if p.ready then (buildChunks p.allocs r.snaps staging.bytes dirtyOnly).take p.copied else []

/-- `iv_base` of `do_phase34`. -/
def deltaBase : Nat := r.snaps.length * 4096

/-- The pages of both phases. -/
def handed (key : Bytes) : List Handed :=
  runPingpong key r.phase2.host r.online (r.copied staging r.phase2 false) 0 ++
    runPingpong key r.phase4.host r.online (r.copied staging r.phase4 true) r.deltaBase

/-- `do_phase1` makes the key of the process in round 0; the result of the call is not
looked at. -/
def key (rid : Nat) (key : Bytes) : Bytes := if rid = 0 then r.random.getD key else key

/-- How many pages are encrypted in each phase. -/
def basePages : Nat := ((r.copied staging r.phase2 false).map fun c => pages c.size).sum

def deltaPages : Nat := ((r.copied staging r.phase4 true).map fun c => pages c.size).sum

end Round

/-- The pages that the process encrypts from round `rid` on. -/
def history (staging : Staging) : (key : Bytes) → (rid : Nat) → List Round → List Handed
  | _, _, [] => []
  | key, rid, r :: rest =>
      r.handed staging (r.key rid key) ++ history staging (r.key rid key) (rid + 1) rest

/-- Phase 4 of `b` encrypts nothing, or begins behind the pages of Phase 2 of `a`. -/
def Behind (staging : Staging) (a b : Round) : Prop :=
  0 < b.deltaPages staging → a.basePages staging ≤ b.deltaBase

/-- In each round Phase 4 begins behind Phase 2. In two rounds the counters of one Phase 4
lie behind the other, both lie behind either Phase 2, and Phase 2 of one encrypts nothing. -/
structure SpansApart (staging : Staging) (rounds : List Round) : Prop where
  own : ∀ r ∈ rounds, Behind staging r r
  others : rounds.Pairwise fun a b =>
    ¬(0 < a.basePages staging ∧ 0 < b.basePages staging) ∧ Behind staging a b ∧ Behind staging b a ∧
      (0 < a.deltaPages staging → 0 < b.deltaPages staging →
        a.deltaBase + a.deltaPages staging ≤ b.deltaBase ∨
          b.deltaBase + b.deltaPages staging ≤ a.deltaBase)

/-- The key and IV pairs of consecutive counters. -/
def span (key : Bytes) (base count : Nat) : List (Bytes × Bytes) :=
  (List.range' base count).map fun c => (key, buildIv c)

theorem runPingpong_pairs (key : Bytes) (host : Chunk → Bytes) (online : Int) (chunks : List Chunk)
    (iv : Nat) : (runPingpong key host online chunks iv).map (fun p => (p.key, p.iv)) =
      span key iv (chunks.map fun c => pages c.size).sum := by
  induction chunks generalizing iv with
  | nil => rfl
  | cons c rest ih =>
      rw [runPingpong, List.map_append, encryptPages_pairs, ih, List.map_cons, List.sum_cons, span,
        span, ← List.map_append, List.range'_append_1]

theorem handed_pairs (staging : Staging) (r : Round) (key : Bytes) :
    (r.handed staging key).map (fun p => (p.key, p.iv)) =
      span key 0 (r.basePages staging) ++ span key r.deltaBase (r.deltaPages staging) := by
  rw [Round.handed, List.map_append, runPingpong_pairs, runPingpong_pairs]
  rfl

/-- The whole process uses one key. -/
theorem history_pairs (staging : Staging) (key : Bytes) (rid : Nat) (rounds : List Round) :
    ∃ k, (history staging key rid rounds).map (fun p => (p.key, p.iv)) = rounds.flatMap fun r =>
      span k 0 (r.basePages staging) ++ span k r.deltaBase (r.deltaPages staging) := by
  have hLater : ∀ (k : Bytes) (n : Nat) (rest : List Round),
      (history staging k (n + 1) rest).map (fun p => (p.key, p.iv)) = rest.flatMap fun r =>
        span k 0 (r.basePages staging) ++ span k r.deltaBase (r.deltaPages staging) := by
    intro k n rest
    induction rest generalizing n with
    | nil => rfl
    | cons r rest ih =>
        have hKey : r.key (n + 1) k = k := if_neg (Nat.succ_ne_zero n)
        rw [history, hKey, List.map_append, handed_pairs, ih, List.flatMap_cons]
  cases rounds with
  | nil => exact ⟨key, rfl⟩
  | cons r rest =>
      refine ⟨r.key rid key, ?_⟩
      rw [history, List.map_append, handed_pairs, hLater, List.flatMap_cons]

theorem pages_le (size : Nat) : pages size ≤ size / 2 ^ 20 + 1 := by
  have hMod := Nat.mod_le ((size + pageSize - 1) / pageSize) (2 ^ 32)
  rw [pages]
  simp only [pageSize] at hMod ⊢
  omega

/-- A full chunk has no more pages than megabytes. -/
theorem pages_le_of_large {size : Nat} (h : 2 ^ 20 ≤ size) : pages size ≤ size / 2 ^ 20 := by
  have hMod := Nat.mod_le ((size + pageSize - 1) / pageSize) (2 ^ 32)
  rw [pages]
  simp only [pageSize] at hMod ⊢
  omega

theorem entryChunks_pages_le {staging : Nat} (hStaging : 2 ^ 20 ≤ staging)
    (va size imgBase fuel off : Nat) :
    ((entryChunks staging va size imgBase fuel off).map fun c => pages c.size).sum ≤
      (size - off) / 2 ^ 20 + 1 := by
  induction fuel generalizing off with
  | zero => exact Nat.zero_le _
  | succ fuel ih =>
      rw [entryChunks]
      split
      · dsimp only
        split
        · have hFull := pages_le_of_large hStaging
          have hRest := ih (off + staging)
          rw [List.map_cons, List.sum_cons]
          dsimp only
          omega
        · have hLast := pages_le (size - off)
          have hRest : entryChunks staging va size imgBase fuel (off + (size - off)) = [] := by
            cases fuel with
            | zero => rfl
            | succ fuel => rw [entryChunks, if_neg (by omega)]
          rw [hRest, List.map_cons, List.sum_cons]
          simpa using hLast
      · exact Nat.zero_le _

theorem snaps_length_le (r : Round) : r.snaps.length ≤ 4096 := by
  have hLength := List.length_filterMap_le (fun (x : Alloc PhosFlags × Nat) =>
    if x.1.alive then some (⟨x.1.toRegion, x.2⟩ : SnapEnt) else none) r.snapshot.zipIdx
  rw [List.length_zipIdx] at hLength
  exact Nat.le_trans hLength r.room

theorem snaps_size_lt (r : Round) {snap : SnapEnt} (h : snap ∈ r.snaps) : snap.size < 2 ^ 64 := by
  obtain ⟨⟨e, i⟩, he, hSnap⟩ := List.mem_filterMap.mp h
  have hMem : e ∈ r.snapshot :=
    List.mem_of_getElem? (List.mk_mem_zipIdx_iff_getElem?.mp he)
  dsimp only at hSnap
  split at hSnap
  · cases hSnap
    exact r.sizes e hMem
  · cases hSnap

theorem sum_take_le (l : List Nat) (n : Nat) : (l.take n).sum ≤ l.sum := by
  conv_rhs => rw [← List.take_append_drop n l, List.sum_append]
  exact Nat.le_add_right _ _

/-- A phase encrypts far fewer pages than there are counters. -/
theorem copied_pages_le (staging : Staging) (r : Round) (p : Phase) (dirtyOnly : Bool) :
    ((r.copied staging p dirtyOnly).map fun c => pages c.size).sum ≤ 2 ^ 56 := by
  have hAll : ∀ snaps : List SnapEnt, (∀ snap ∈ snaps, snap.size < 2 ^ 64) →
      ((buildChunks p.allocs snaps staging.bytes dirtyOnly).map fun c => pages c.size).sum ≤
        snaps.length * 2 ^ 44 := by
    intro snaps hSizes
    induction snaps with
    | nil => exact Nat.zero_le _
    | cons snap rest ih =>
        obtain ⟨hSize, hRest⟩ := List.forall_mem_cons.mp hSizes
        have hHead : ∀ img, ((entryChunks staging.bytes snap.va snap.size img snap.size 0).map
            fun c => pages c.size).sum ≤ 2 ^ 44 := by
          intro img
          have := entryChunks_pages_le staging.large snap.va snap.size img snap.size 0
          omega
        rw [buildChunks, List.flatMap_cons, List.map_append, List.sum_append, List.length_cons,
          Nat.succ_mul, Nat.add_comm]
        apply Nat.add_le_add (ih hRest)
        split
        · exact Nat.zero_le _
        · split
          · exact Nat.zero_le _
          · split
            · exact Nat.zero_le _
            · exact hHead _
  rw [Round.copied]
  split
  · rw [List.map_take]
    have hTake := sum_take_le ((buildChunks p.allocs r.snaps staging.bytes dirtyOnly).map
      fun c => pages c.size) p.copied
    have hSum := hAll r.snaps fun snap hSnap => snaps_size_lt r hSnap
    have hLength := Nat.mul_le_mul_right (2 ^ 44) (snaps_length_le r)
    omega
  · exact Nat.zero_le _

theorem span_nodup (key : Bytes) {base count : Nat} (h : base + count ≤ 2 ^ 64) :
    (span key base count).Nodup := by
  apply (List.nodup_range' 1).map_on
  intro a ha b hb hEq
  rw [List.mem_range'_1] at ha hb
  exact buildIv_injective (by omega) (by omega) (Prod.mk.inj hEq).2

/-- Two spans under one key share no counter exactly if one is empty or lies behind the
other. -/
theorem span_disjoint_iff (key : Bytes) {a m b n : Nat} (ha : a + m ≤ 2 ^ 64) (hb : b + n ≤ 2 ^ 64) :
    List.Disjoint (span key a m) (span key b n) ↔ (0 < m → 0 < n → a + m ≤ b ∨ b + n ≤ a) := by
  constructor
  · intro h hm hn
    by_contra hMeet
    refine h (a := (key, buildIv (max a b))) ?_ ?_
    · exact List.mem_map.mpr ⟨max a b, by rw [List.mem_range'_1]; omega, rfl⟩
    · exact List.mem_map.mpr ⟨max a b, by rw [List.mem_range'_1]; omega, rfl⟩
  · intro h pair hLeft hRight
    obtain ⟨c, hc, rfl⟩ := List.mem_map.mp hLeft
    obtain ⟨d, hd, hEq⟩ := List.mem_map.mp hRight
    rw [List.mem_range'_1] at hc hd
    have hSame : d = c := buildIv_injective (by omega) (by omega) (Prod.mk.inj hEq).2
    omega

theorem Round.bounds (staging : Staging) (r : Round) :
    r.basePages staging ≤ 2 ^ 56 ∧ r.deltaBase + r.deltaPages staging ≤ 2 ^ 64 := by
  refine ⟨copied_pages_le staging r r.phase2 false, ?_⟩
  have hPages := copied_pages_le staging r r.phase4 true
  have hSnaps := snaps_length_le r
  rw [Round.deltaBase, Round.deltaPages]
  omega

/-- Phase 2 counts from 0, so what it meets lies in front of its end. -/
theorem base_disjoint_iff (staging : Staging) (key : Bytes) (a b : Round) :
    List.Disjoint (span key 0 (a.basePages staging)) (span key b.deltaBase (b.deltaPages staging)) ↔
      Behind staging a b := by
  have ha := a.bounds staging
  have hb := b.bounds staging
  rw [span_disjoint_iff key (by omega) hb.2, Behind]
  constructor
  · intro h hPos
    by_contra hMeet
    have := h (by omega) hPos
    omega
  · intro h _ hPos
    exact .inl (by have := h hPos; omega)

theorem bases_disjoint_iff (staging : Staging) (key : Bytes) (a b : Round) :
    List.Disjoint (span key 0 (a.basePages staging)) (span key 0 (b.basePages staging)) ↔
      ¬(0 < a.basePages staging ∧ 0 < b.basePages staging) := by
  have ha := a.bounds staging
  have hb := b.bounds staging
  rw [span_disjoint_iff key (by omega) (by omega)]
  omega

/-- The counters of one round. -/
theorem own_nodup_iff (staging : Staging) (key : Bytes) (r : Round) :
    (span key 0 (r.basePages staging) ++ span key r.deltaBase (r.deltaPages staging)).Nodup ↔
      Behind staging r r := by
  have hBounds := r.bounds staging
  rw [List.nodup_append', base_disjoint_iff]
  exact ⟨fun h => h.2.2, fun h => ⟨span_nodup key (by omega), span_nodup key hBounds.2, h⟩⟩

/-- The counters of two rounds. -/
theorem rounds_disjoint_iff (staging : Staging) (key : Bytes) (a b : Round) :
    List.Disjoint
        (span key 0 (a.basePages staging) ++ span key a.deltaBase (a.deltaPages staging))
        (span key 0 (b.basePages staging) ++ span key b.deltaBase (b.deltaPages staging)) ↔
      ¬(0 < a.basePages staging ∧ 0 < b.basePages staging) ∧ Behind staging a b ∧
        Behind staging b a ∧ (0 < a.deltaPages staging → 0 < b.deltaPages staging →
          a.deltaBase + a.deltaPages staging ≤ b.deltaBase ∨
            b.deltaBase + b.deltaPages staging ≤ a.deltaBase) := by
  rw [List.disjoint_append_left, List.disjoint_append_right, List.disjoint_append_right,
    bases_disjoint_iff, base_disjoint_iff, List.disjoint_comm, base_disjoint_iff,
    span_disjoint_iff key (a.bounds staging).2 (b.bounds staging).2, and_assoc]

/-- No key and IV serve twice in a process, whatever its rounds, if and only if the
counters of its phases lie apart. -/
theorem noncesUnique_rounds_iff (staging : Staging) (key : Bytes) (rid : Nat) (rounds : List Round) :
    NoncesUnique (history staging key rid rounds) ↔ SpansApart staging rounds := by
  obtain ⟨k, hPairs⟩ := history_pairs staging key rid rounds
  have hNodup : ((history staging key rid rounds).map fun p => (p.key, p.iv)).Nodup ↔
      SpansApart staging rounds := by
    rw [hPairs, List.nodup_flatMap]
    constructor
    · rintro ⟨hOwn, hOthers⟩
      exact ⟨fun r hr => (own_nodup_iff staging k r).mp (hOwn r hr),
        hOthers.imp fun hab => (rounds_disjoint_iff staging k _ _).mp hab⟩
    · rintro ⟨hOwn, hOthers⟩
      exact ⟨fun r hr => (own_nodup_iff staging k r).mpr (hOwn r hr),
        hOthers.imp fun hab => (rounds_disjoint_iff staging k _ _).mpr hab⟩
  exact ⟨fun h => hNodup.mp h.distinct, fun h => .of_distinct (hNodup.mpr h)⟩

theorem defaultStaging_large : 2 ^ 20 ≤ 4096 * 1024 * 1024 := by decide

/-- The default size of the staging buffers. -/
def defaultStaging : Staging := ⟨4096 * 1024 * 1024, defaultStaging_large⟩

/-- One allocation of 2 MB. -/
def onePage : List (Alloc PhosFlags) := [⟨⟨0x200000, 0x200000⟩, some 0, true, ⟨false, false⟩⟩]

theorem onePage_room : onePage.length ≤ phos.maxAllocs := by decide

theorem onePage_sizes : ∀ e ∈ onePage, e.size < 2 ^ 64 := by decide

/-- A round in which nothing is written after the snapshot, with what the page holds. -/
def quietRound (page : Bytes) : Round where
  random := some (List.replicate keySize 7)
  snapshot := onePage
  room := onePage_room
  sizes := onePage_sizes
  phase2 := ⟨onePage, true, 1, fun _ => page⟩
  phase4 := ⟨onePage, true, 0, fun _ => []⟩
  online := 1

theorem handed_quietRound (key page : Bytes) (h : page.length = pageSize) :
    (quietRound page).handed defaultStaging key = [⟨0, key, buildIv 0, page⟩] := by
  have hBase : (quietRound page).copied defaultStaging (quietRound page).phase2 false =
      [⟨⟨0x200000, 0x200000⟩, 0⟩] := rfl
  have hDelta : (quietRound page).copied defaultStaging (quietRound page).phase4 true = [] := rfl
  have hPages : pages 0x200000 = 1 := by decide
  have hTake : page.take pageSize = page := List.take_of_length_le h.le
  have hHost : (quietRound page).phase2.host = fun _ => page := rfl
  rw [Round.handed, hBase, hDelta, hHost]
  simp [runPingpong, hPages, encryptPages_eq, hTake]

/-- The second round encrypts the page, which has changed, under the key and counter 0 of the
first. -/
theorem not_noncesUnique_twoRounds :
    ¬ ∀ (staging : Staging) (rounds : List Round),
      NoncesUnique (history staging (List.replicate keySize 0) 0 rounds) := by
  intro h
  have hPlain := (h defaultStaging [quietRound (List.replicate pageSize 0),
    quietRound (List.replicate pageSize 1)]).onePlaintext
  have hFirst : (quietRound (List.replicate pageSize 0)).key 0 (List.replicate keySize 0) =
      List.replicate keySize 7 := rfl
  have hSecond : (quietRound (List.replicate pageSize 1)).key (0 + 1) (List.replicate keySize 7) =
      List.replicate keySize 7 := rfl
  rw [history, hFirst, history, hSecond, history,
    handed_quietRound _ _ List.length_replicate, handed_quietRound _ _ List.length_replicate] at hPlain
  have hSame := hPlain _ List.mem_cons_self _ (List.mem_cons_of_mem _ List.mem_cons_self) rfl rfl
  cases congrArg List.head? hSame

end FlashCkpt.Emul.Phos
