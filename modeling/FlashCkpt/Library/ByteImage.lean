import Mathlib.Algebra.Order.Ring.Nat
import Mathlib.Data.List.Basic
import Mathlib.Data.List.Perm.Basic

/-! Byte images: integers in little-endian bytes, and files which several
writers fill in any order. Writes which follow one another without a gap are
disjoint, and disjoint writes can all be read back whatever their order. -/
namespace ByteImage

abbrev Bytes := List UInt8

/-- The bytes of a machine integer, least significant first. -/
def leBytes : Nat → Nat → Bytes
  | 0, _ => []
  | width + 1, n => UInt8.ofNat n :: leBytes width (n / 256)

def ofLeBytes : Bytes → Nat
  | [] => 0
  | byte :: rest => byte.toNat + 256 * ofLeBytes rest

@[simp] theorem leBytes_length (width n : Nat) : (leBytes width n).length = width := by
  induction width generalizing n with
  | zero => rfl
  | succ width ih => simp [leBytes, ih]

theorem ofLeBytes_leBytes {width n : Nat} (h : n < 256 ^ width) :
    ofLeBytes (leBytes width n) = n := by
  induction width generalizing n with
  | zero =>
      simp only [Nat.pow_zero] at h
      simp only [leBytes, ofLeBytes]
      omega
  | succ width ih =>
      rw [Nat.pow_succ] at h
      have hHigh : n / 256 < 256 ^ width := by omega
      have hLow : (UInt8.ofNat n).toNat = n % 256 := by simp
      rw [leBytes, ofLeBytes, ih hHigh, hLow]
      omega

theorem leBytes_injective {width m n : Nat} (hm : m < 256 ^ width) (hn : n < 256 ^ width)
    (h : leBytes width m = leBytes width n) : m = n := by
  rw [← ofLeBytes_leBytes hm, ← ofLeBytes_leBytes hn, h]

theorem ofLeBytes_append (bytes bytes' : Bytes) :
    ofLeBytes (bytes ++ bytes') = ofLeBytes bytes + 256 ^ bytes.length * ofLeBytes bytes' := by
  induction bytes with
  | nil => simp [ofLeBytes]
  | cons byte rest ih =>
      rw [List.cons_append, ofLeBytes, ofLeBytes, ih, List.length_cons, Nat.pow_succ']
      rw [Nat.mul_add, Nat.mul_assoc, Nat.add_assoc]

theorem ofLeBytes_lt (bytes : Bytes) : ofLeBytes bytes < 256 ^ bytes.length := by
  induction bytes with
  | nil => exact Nat.one_pos
  | cons byte rest ih =>
      have hByte : byte.toNat < 256 := byte.toNat_lt
      rw [ofLeBytes, List.length_cons, Nat.pow_succ']
      omega

/-- Without bytes that are zero a number is as large as its length says. -/
theorem ofLeBytes_le {bytes : Bytes} (h : 0 ∉ bytes) :
    256 ^ bytes.length ≤ 256 * ofLeBytes bytes + 1 := by
  induction bytes with
  | nil => exact Nat.le_refl 1
  | cons byte rest ih =>
      rw [List.mem_cons, not_or] at h
      have hRest := ih h.2
      have hByte : 0 < byte.toNat := by
        refine Nat.pos_of_ne_zero fun hZero => h.1 ?_
        exact (UInt8.toNat_inj.mp hZero).symm
      rw [ofLeBytes, List.length_cons, Nat.pow_succ']
      omega

/-- The low bytes of a number. -/
theorem ofLeBytes_take {bytes : Bytes} {n : Nat} (h : n ≤ bytes.length) :
    ofLeBytes (bytes.take n) = ofLeBytes bytes % 256 ^ n := by
  have hLength : (bytes.take n).length = n := by
    rw [List.length_take]
    omega
  have hLow := ofLeBytes_lt (bytes.take n)
  have hSplit := ofLeBytes_append (bytes.take n) (bytes.drop n)
  rw [List.take_append_drop, hLength] at hSplit
  rw [hLength] at hLow
  rw [hSplit, Nat.add_mul_mod_self_left, Nat.mod_eq_of_lt hLow]

theorem ofLeBytes_injective {bytes bytes' : Bytes} (hLength : bytes.length = bytes'.length)
    (h : ofLeBytes bytes = ofLeBytes bytes') : bytes = bytes' := by
  induction bytes generalizing bytes' with
  | nil => exact (List.length_eq_zero_iff.mp hLength.symm).symm
  | cons byte rest ih =>
      obtain ⟨byte', rest', rfl⟩ := List.exists_cons_of_length_eq_add_one hLength.symm
      have hByte : byte.toNat < 256 := byte.toNat_lt
      have hByte' : byte'.toNat < 256 := byte'.toNat_lt
      rw [ofLeBytes, ofLeBytes] at h
      rw [UInt8.toNat_inj.mp (show byte.toNat = byte'.toNat by omega),
        ih (Nat.succ.inj hLength) (by omega)]

/-- A file as an address space. -/
abbrev Image := Nat → UInt8

def read (image : Image) (off n : Nat) : Bytes := (List.range n).map fun i => image (off + i)

/-- Bytes put over a buffer at an offset. -/
def splice (buffer : Bytes) (off : Nat) (src : Bytes) : Bytes :=
  buffer.take off ++ src ++ buffer.drop (off + src.length)

structure Write where
  off : Nat
  bytes : Bytes
  deriving DecidableEq, Repr

def Write.stop (w : Write) : Nat := w.off + w.bytes.length

def write (image : Image) (w : Write) : Image := fun a =>
  if w.off ≤ a ∧ a < w.stop then w.bytes.getD (a - w.off) 0 else image a

def writeAll (image : Image) (ws : List Write) : Image := ws.foldl write image

/-- An order in which concurrent writers carry out what they were given. -/
structure Schedule where
  order : List Write → List Write
  perm : ∀ writes, (order writes).Perm writes

def Write.Disjoint (v w : Write) : Prop := v.stop ≤ w.off ∨ w.stop ≤ v.off

@[simp] theorem read_length (image : Image) (off n : Nat) : (read image off n).length = n := by
  simp [read]

theorem read_congr {image image' : Image} {off n : Nat}
    (h : ∀ a, off ≤ a → a < off + n → image a = image' a) :
    read image off n = read image' off n := by
  apply List.map_congr_left
  intro i hi
  have hLt := List.mem_range.mp hi
  exact h (off + i) (by omega) (by omega)

theorem read_eq_iff {image image' : Image} {off n : Nat} :
    read image off n = read image' off n ↔ ∀ a, off ≤ a → a < off + n → image a = image' a := by
  refine ⟨fun h a hLow hHigh => ?_, read_congr⟩
  have hByte := List.map_inj_left.mp h (a - off) (List.mem_range.mpr (by omega))
  rwa [Nat.add_sub_cancel' hLow] at hByte

/-- A slice of what was read is what the slice of the file holds. -/
theorem read_slice (image : Image) {off n start count : Nat} (h : start + count ≤ n) :
    ((read image off n).drop start).take count = read image (off + start) count := by
  apply List.ext_getElem
  · simp only [List.length_take, List.length_drop, read_length]
    omega
  · intro i hLeft hRight
    simp only [read, List.getElem_take, List.getElem_drop, List.getElem_map, List.getElem_range]
    congr 1
    omega

theorem read_append (image : Image) (off m n : Nat) :
    read image off (m + n) = read image off m ++ read image (off + m) n := by
  simp only [read, List.range_add, List.map_append, List.map_map, Function.comp_def, Nat.add_assoc]

theorem read_chunks (image : Image) (off size n : Nat) :
    ((List.range n).map fun page => read image (off + page * size) size).flatten =
      read image off (n * size) := by
  induction n with
  | zero => simp [read]
  | succ n ih =>
      rw [List.range_succ, List.map_append, List.flatten_append, ih, Nat.add_mul, read_append]
      simp

theorem splice_length {buffer src : Bytes} {off : Nat} (h : off + src.length ≤ buffer.length) :
    (splice buffer off src).length = buffer.length := by
  simp only [splice, List.length_append, List.length_take, List.length_drop]
  omega

@[simp] theorem splice_nil (buffer : Bytes) (off : Nat) : splice buffer off [] = buffer := by
  simp [splice]

/-- Bytes put right behind the bytes put before. -/
theorem splice_splice {buffer src src' : Bytes} {off : Nat}
    (h : off + src.length ≤ buffer.length) :
    splice (splice buffer off src) (off + src.length) src' = splice buffer off (src ++ src') := by
  have hFront : (buffer.take off ++ src).length = off + src.length := by
    rw [List.length_append, List.length_take]
    omega
  have hTake : (splice buffer off src).take (off + src.length) = buffer.take off ++ src := by
    rw [splice, List.take_left' hFront]
  have hDrop : (splice buffer off src).drop (off + src.length + src'.length) =
      buffer.drop (off + (src ++ src').length) := by
    rw [splice, ← List.drop_drop, List.drop_left' hFront, List.drop_drop, List.length_append]
    congr 1
    omega
  rw [splice, hTake, hDrop, splice]
  simp only [List.append_assoc]

/-- Bytes put over a buffer as far as it reaches leave its length. -/
theorem splice_take_length (buffer src : Bytes) (off : Nat) :
    (splice buffer off (src.take (buffer.length - off))).length = buffer.length := by
  by_cases hInside : off ≤ buffer.length
  · apply splice_length
    rw [List.length_take]
    omega
  · rw [show buffer.length - off = 0 by omega, List.take_zero, splice_nil]

/-- Two pieces put behind each other as far as the buffer reaches. -/
theorem splice_take_append (buffer src src' : Bytes) (off : Nat) :
    splice (splice buffer off (src.take (buffer.length - off))) (off + src.length)
        (src'.take (buffer.length - (off + src.length))) =
      splice buffer off ((src ++ src').take (buffer.length - off)) := by
  rw [List.take_append, Nat.sub_sub]
  by_cases hFits : off + src.length ≤ buffer.length
  · rw [List.take_of_length_le (by omega), splice_splice hFits]
  · rw [show buffer.length - (off + src.length) = 0 by omega, List.take_zero, splice_nil,
      List.append_nil]

/-- Part of a copy replaced by part of another copy. -/
theorem splice_read (image image' : Image) {start n lo hi : Nat} (hLow : start ≤ lo)
    (hOrder : lo ≤ hi) (hHigh : hi ≤ start + n) :
    splice (read image start n) (lo - start) (read image' lo (hi - lo)) =
      read (fun a => if lo ≤ a ∧ a < hi then image' a else image a) start n := by
  have hParts : n = (lo - start) + ((hi - lo) + (start + n - hi)) := by omega
  have hStart : start + (lo - start) = lo := by omega
  have hStop : lo + (hi - lo) = hi := by omega
  rw [splice, read_length, hParts, read_append, read_append, read_append, read_append, hStart, hStop,
    ← List.append_assoc (read image start _),
    List.drop_left' (by simp only [List.length_append, read_length]), List.append_assoc,
    List.append_assoc, List.take_left' (read_length _ _ _)]
  have hBefore : read image start (lo - start) =
      read (fun a => if lo ≤ a ∧ a < hi then image' a else image a) start (lo - start) := by
    apply read_congr
    intro a hFrom hTo
    rw [if_neg (by omega)]
  have hMiddle : read image' lo (hi - lo) =
      read (fun a => if lo ≤ a ∧ a < hi then image' a else image a) lo (hi - lo) := by
    apply read_congr
    intro a hFrom hTo
    rw [if_pos (by omega)]
  have hAfter : read image hi (start + n - hi) =
      read (fun a => if lo ≤ a ∧ a < hi then image' a else image a) hi (start + n - hi) := by
    apply read_congr
    intro a hFrom hTo
    rw [if_neg (by omega)]
  rw [hBefore, hMiddle, hAfter]

theorem write_outside (image : Image) {w : Write} {a : Nat} (h : a < w.off ∨ w.stop ≤ a) :
    write image w a = image a := by
  rw [write, if_neg (by omega)]

theorem writeAll_outside (image : Image) {ws : List Write} {a : Nat}
    (h : ∀ w ∈ ws, a < w.off ∨ w.stop ≤ a) : writeAll image ws a = image a := by
  induction ws generalizing image with
  | nil => rfl
  | cons w rest ih =>
      rw [writeAll, List.foldl_cons, ← writeAll, ih, write_outside]
      · exact h w List.mem_cons_self
      · exact fun v hv => h v (List.mem_cons_of_mem w hv)

/-- A byte that some write covers is a byte of a write that covers it. -/
theorem writeAll_covered (image : Image) (ws : List Write) (a : Nat)
    (h : ∃ w ∈ ws, w.off ≤ a ∧ a < w.stop) :
    ∃ w ∈ ws, (w.off ≤ a ∧ a < w.stop) ∧ writeAll image ws a = w.bytes.getD (a - w.off) 0 := by
  induction ws generalizing image with
  | nil =>
      obtain ⟨w, hw, _⟩ := h
      cases hw
  | cons v rest ih =>
      by_cases hRest : ∃ w ∈ rest, w.off ≤ a ∧ a < w.stop
      · obtain ⟨w, hw, hCovers, hByte⟩ := ih (write image v) hRest
        exact ⟨w, List.mem_cons_of_mem v hw, hCovers, hByte⟩
      · obtain ⟨w, hw, hCovers⟩ := h
        rcases List.mem_cons.mp hw with rfl | hw
        · refine ⟨w, List.mem_cons_self, hCovers, ?_⟩
          have hAfter : writeAll (write image w) rest a = write image w a := by
            apply writeAll_outside
            intro v hv
            have hNot : ¬(v.off ≤ a ∧ a < v.stop) := fun h => hRest ⟨v, hv, h⟩
            omega
          exact hAfter.trans (if_pos hCovers)
        · exact (hRest ⟨w, hw, hCovers⟩).elim

theorem read_writeAll_outside (image : Image) {ws : List Write} {off n : Nat}
    (h : ∀ w ∈ ws, w.stop ≤ off ∨ off + n ≤ w.off) :
    read (writeAll image ws) off n = read image off n := by
  apply read_congr
  intro a hLow hHigh
  apply writeAll_outside
  intro w hw
  have := h w hw
  omega

theorem read_write_self (image : Image) (w : Write) :
    read (write image w) w.off w.bytes.length = w.bytes := by
  apply List.ext_getElem
  · simp
  · intro i hLeft hRight
    simp only [read, List.getElem_map, List.getElem_range, write, Write.stop]
    rw [if_pos (by omega), Nat.add_sub_cancel_left]
    exact (List.getElem_eq_getD 0).symm

theorem read_const {image : Image} {byte : UInt8} (h : ∀ a, image a = byte) (off n : Nat) :
    read image off n = List.replicate n byte := by
  rw [read, List.eq_replicate_iff]
  refine ⟨by simp, fun b hb => ?_⟩
  obtain ⟨i, _, rfl⟩ := List.mem_map.mp hb
  exact h (off + i)

/-- A write of one byte over and over. -/
theorem write_replicate (image : Image) (off n : Nat) (byte : UInt8) (a : Nat) :
    write image ⟨off, List.replicate n byte⟩ a =
      if off ≤ a ∧ a < off + n then byte else image a := by
  rw [write, Write.stop, List.length_replicate]
  refine ite_congr rfl (fun hCovers => ?_) fun _ => rfl
  rw [List.getD_eq_getElem?_getD, List.getElem?_replicate, if_pos (by dsimp only; omega)]
  rfl

/-- Disjoint writes can be read back in whatever order they were made. -/
theorem read_writeAll (image : Image) {ws : List Write} (hDisjoint : ws.Pairwise Write.Disjoint)
    {w : Write} (hMem : w ∈ ws) : read (writeAll image ws) w.off w.bytes.length = w.bytes := by
  induction ws generalizing image with
  | nil => cases hMem
  | cons v rest ih =>
      obtain ⟨hHead, hRest⟩ := List.pairwise_cons.mp hDisjoint
      rw [writeAll, List.foldl_cons, ← writeAll]
      rcases List.mem_cons.mp hMem with rfl | hMem
      · rw [← read_write_self image w]
        simp only [read_length]
        apply read_congr
        intro a hLow hHigh
        apply writeAll_outside
        intro v hv
        rcases hHead v hv with hBefore | hAfter
        · exact .inl (Nat.lt_of_lt_of_le hHigh hBefore)
        · exact .inr (Nat.le_trans hAfter hLow)
      · exact ih (write image v) hRest hMem

/-- Among the writes, and not written over by a later one. -/
def Landed (ws : List Write) (w : Write) : Prop :=
  w ∈ ws ∧ ∀ image, read (writeAll image ws) w.off w.bytes.length = w.bytes

theorem landed_last (ws : List Write) (w : Write) : Landed (ws ++ [w]) w := by
  refine ⟨List.mem_append_right _ List.mem_cons_self, fun image => ?_⟩
  rw [writeAll, List.foldl_concat]
  exact read_write_self _ w

theorem Landed.concat {ws : List Write} {w v : Write} (h : Landed ws w) (hApart : v.Disjoint w) :
    Landed (ws ++ [v]) w := by
  obtain ⟨hMem, hRead⟩ := h
  refine ⟨List.mem_append_left _ hMem, fun image => ?_⟩
  rw [writeAll, List.foldl_concat]
  refine (read_congr fun a hLow hHigh => write_outside _ ?_).trans (hRead image)
  rcases hApart with hBefore | hAfter
  · exact .inr (Nat.le_trans hBefore hLow)
  · exact .inl (Nat.lt_of_lt_of_le hHigh hAfter)

theorem Write.Disjoint.symm {v w : Write} (h : v.Disjoint w) : w.Disjoint v := Or.symm h

/-- Writes that fill the interval from `start` to `stop` one after the other. -/
def Packed : Nat → List Write → Nat → Prop
  | start, [], stop => start = stop
  | start, w :: rest, stop => w.off = start ∧ Packed w.stop rest stop

theorem Packed.append {start middle stop : Nat} {ws vs : List Write}
    (hLeft : Packed start ws middle) (hRight : Packed middle vs stop) :
    Packed start (ws ++ vs) stop := by
  induction ws generalizing start with
  | nil =>
      cases hLeft
      exact hRight
  | cons w rest ih => exact ⟨hLeft.1, ih hLeft.2⟩

theorem Packed.bounds {start stop : Nat} {ws : List Write} (h : Packed start ws stop) :
    start ≤ stop ∧ ∀ w ∈ ws, start ≤ w.off ∧ w.stop ≤ stop := by
  induction ws generalizing start with
  | nil =>
      cases h
      exact ⟨Nat.le_refl _, by simp⟩
  | cons w rest ih =>
      obtain ⟨hOff, hRest⟩ := h
      obtain ⟨hLe, hAll⟩ := ih hRest
      have hStop : w.off ≤ w.stop := Nat.le_add_right _ _
      refine ⟨by omega, ?_⟩
      intro v hv
      rcases List.mem_cons.mp hv with rfl | hv
      · omega
      · have hBounds := hAll v hv
        omega

theorem Packed.pairwise {start stop : Nat} {ws : List Write} (h : Packed start ws stop) :
    ws.Pairwise Write.Disjoint := by
  induction ws generalizing start with
  | nil => exact List.Pairwise.nil
  | cons w rest ih =>
      refine List.Pairwise.cons (fun v hv => .inl ?_) (ih h.2)
      exact ((Packed.bounds h.2).2 v hv).1

/-- The writes of a packed layout, made in any order, can all be read back. -/
theorem Packed.read_writeAll {start stop : Nat} {layout order : List Write}
    (h : Packed start layout stop) (hOrder : order.Perm layout) (image : Image) {w : Write}
    (hMem : w ∈ layout) : read (writeAll image order) w.off w.bytes.length = w.bytes := by
  have hPairwise : order.Pairwise Write.Disjoint :=
    (hOrder.pairwise_iff Write.Disjoint.symm).mpr h.pairwise
  exact ByteImage.read_writeAll image hPairwise (hOrder.mem_iff.mpr hMem)

/-- From its start to its stop a packed layout reads as one sequence of bytes. -/
theorem Packed.read_all {start stop : Nat} {layout order : List Write}
    (h : Packed start layout stop) (hOrder : order.Perm layout) (image : Image) :
    read (writeAll image order) start (stop - start) = layout.flatMap Write.bytes := by
  have hBack : ∀ w ∈ layout, read (writeAll image order) w.off w.bytes.length = w.bytes :=
    fun w hw => h.read_writeAll hOrder image hw
  generalize writeAll image order = filled at hBack
  clear hOrder
  induction layout generalizing start with
  | nil =>
      cases h
      rw [Nat.sub_self]
      rfl
  | cons w rest ih =>
      obtain ⟨rfl, hRest⟩ := h
      have hStop : w.stop ≤ stop := hRest.bounds.1
      have hSize : stop - w.off = w.bytes.length + (stop - w.stop) := by
        rw [Write.stop] at hStop ⊢
        omega
      rw [hSize, read_append, hBack w List.mem_cons_self, ← Write.stop,
        ih hRest fun v hv => hBack v (List.mem_cons_of_mem w hv), List.flatMap_cons]

/-- Each byte of each write of a packed layout stands in the image. -/
theorem Packed.byte_writeAll {start stop : Nat} {layout : List Write}
    (h : Packed start layout stop) (image : Image) {w : Write} (hMem : w ∈ layout) {i : Nat}
    (hi : i < w.bytes.length) : some (writeAll image layout (w.off + i)) = w.bytes[i]? := by
  have hRead := h.read_writeAll (List.Perm.refl _) image hMem
  rw [← hRead] at hi ⊢
  rw [read_length] at hi
  rw [read, List.getElem?_map, List.getElem?_range (by simpa using hi), Option.map_some]

/-- Writes of one size, one after the other. -/
theorem Packed.uniform (off size n : Nat) (bytes : Nat → Bytes)
    (h : ∀ page < n, (bytes page).length = size) :
    Packed off ((List.range n).map fun page => ⟨off + page * size, bytes page⟩)
      (off + n * size) := by
  induction n with
  | zero => simp [Packed]
  | succ n ih =>
      rw [List.range_succ, List.map_append]
      apply Packed.append (ih fun page hPage => h page (by omega))
      refine ⟨rfl, ?_⟩
      show off + n * size + (bytes n).length = off + (n + 1) * size
      rw [h n (by omega), Nat.add_mul]
      omega

end ByteImage
