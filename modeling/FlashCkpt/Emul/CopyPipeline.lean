import FlashCkpt.Emul.AllocTable
import FlashCkpt.Library.ByteImage
import FlashCkpt.Library.PingPong

/-! The copies of a round in both emulators: a chunk is copied from the device into a staging
buffer, encrypted, and written to its place in the image, by a producer and a consumer with two
buffers. The images are taken as the bytes before they are encrypted. -/
namespace FlashCkpt.Emul

open ByteImage

/-- How a copy from the device ends. `cudaMemcpyAsync` refuses it, or takes it and the bytes
never arrive, which only the synchronisation behind it would report. -/
inductive CopyEnd where
  | done
  | refused
  | lost
  deriving DecidableEq, Repr

/-- A range of device memory with its place in the image. -/
abbrev Move := Region × Nat

/-- The byte of the image is the one that a copy of the round brought from the address.
`device` is what the device holds at each of the copies. -/
def Delivered (moves : List Move) (copy : Nat → CopyEnd) (device : Nat → Image) (image : Image)
    (addr pos : Nat) : Prop :=
  ∃ j m, moves[j]? = some m ∧ copy j = .done ∧ m.1.Covers addr ∧ pos = m.2 + (addr - m.1.va) ∧
    image pos = device j addr

/-- A move that is carried out. -/
def Move.write (device : Nat → Image) (m : Move × Nat) : Write :=
  ⟨m.1.2, read (device m.2) m.1.1.va m.1.1.size⟩

theorem Move.write_stop (device : Nat → Image) (m : Move × Nat) :
    (Move.write device m).stop = m.1.2 + m.1.1.size := by
  rw [Move.write, Write.stop, read_length]

variable {moves : List Move} {copy : Nat → CopyEnd}

/-- Where all moves are carried out, each byte of the image that one of them covers was
delivered, and the others are left. -/
theorem delivered_writeAll (hDone : ∀ j < moves.length, copy j = .done) (device : Nat → Image)
    (image : Image) (pos : Nat) :
    ((∃ m ∈ moves, m.2 ≤ pos ∧ pos < m.2 + m.1.size) →
      ∃ addr, Delivered moves copy device (writeAll image (moves.zipIdx.map (Move.write device)))
        addr pos) ∧
    ((¬∃ m ∈ moves, m.2 ≤ pos ∧ pos < m.2 + m.1.size) →
      writeAll image (moves.zipIdx.map (Move.write device)) pos = image pos) := by
  constructor
  · rintro ⟨m, hm, hLow, hHigh⟩
    obtain ⟨j, hj⟩ := List.getElem?_of_mem hm
    obtain ⟨w, hw, hCovers, hByte⟩ := writeAll_covered image
      (moves.zipIdx.map (Move.write device)) pos
      ⟨Move.write device (m, j), List.mem_map_of_mem (List.mem_zipIdx_iff_getElem?.mpr hj), hLow,
        by rwa [Move.write_stop]⟩
    obtain ⟨⟨n, k⟩, hn, rfl⟩ := List.mem_map.mp hw
    have hk := List.mem_zipIdx_iff_getElem?.mp hn
    rw [Move.write_stop] at hCovers
    obtain ⟨hLow', hHigh'⟩ : n.2 ≤ pos ∧ pos < n.2 + n.1.size := hCovers
    refine ⟨n.1.va + (pos - n.2), k, n, hk, hDone k (List.getElem?_eq_some_iff.mp hk).1,
      ⟨Nat.le_add_right _ _, by omega⟩, by omega, ?_⟩
    have hOff : pos - n.2 < n.1.size := by omega
    rw [hByte]
    simp [Move.write, ByteImage.read, List.getD_eq_getElem?_getD, hOff]
  · intro hNone
    apply writeAll_outside
    intro w hw
    obtain ⟨⟨m, j⟩, hm, rfl⟩ := List.mem_map.mp hw
    have hNot : ¬(m.2 ≤ pos ∧ pos < m.2 + m.1.size) := fun h =>
      hNone ⟨m, List.mem_of_getElem? (List.mem_zipIdx_iff_getElem?.mp hm), h⟩
    rw [Move.write_stop]
    dsimp only [Move.write]
    omega

end FlashCkpt.Emul
