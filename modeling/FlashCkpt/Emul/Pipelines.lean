import FlashCkpt.Emul.GcrChunks
import FlashCkpt.Emul.PhosCounters
import FlashCkpt.Library.ByteImage
import FlashCkpt.Library.HandOff
import Mathlib.Data.BitVec

/-! The pipelines of the two emulators, with every turn of their threads: GCR hands the packed
slots of a round to its consumer, PHOS the chunks of a pass. -/
namespace FlashCkpt.Emul

open Transition HandOff
open ByteImage (Image)

/-- `slot_first`, `slot_count`, `slot_total`, `slot_np` and `slot_iv`. -/
structure Gcr.SlotPlan where
  first : Nat
  count : Nat
  total : Nat
  np : Nat
  iv : BitVec 64
  deriving DecidableEq, Repr

/-- `copy_and_encrypt_ranges` and `gcr_pingpong_consumer`: a copy for each chunk of a slot, and
the loop goes on when one fails. The consumer encrypts the slot, writes its chunks to the
image and adds its bytes. -/
def Gcr.pingpong : Code Gcr.Slot (BitVec 64) Gcr.SlotPlan (BitVec 64) where
  copies slot := slot.count
  stops := false
  describe iv slot := ⟨slot.first, slot.count, slot.totalBytes, Phos.pages slot.totalBytes, iv⟩
  advance iv slot := iv + BitVec.ofNat 64 (Phos.pages slot.totalBytes)
  looks := 2
  amount plan := BitVec.ofNat 64 plan.total

/-- `slot_img_off`, `slot_size`, `slot_np` and `slot_iv`. -/
structure Phos.SlotPlan where
  imgOff : Nat
  size : Nat
  np : Nat
  iv : BitVec 64
  deriving DecidableEq, Repr

/-- `run_pingpong` and `pingpong_consumer`: one copy for a chunk, and the loop ends when it is
refused. The consumer encrypts the chunk, writes it to the image and adds its bytes. -/
def Phos.pingpong : Code Phos.Chunk (BitVec 64) Phos.SlotPlan (BitVec 64) where
  copies _ := 1
  stops := true
  describe iv c := ⟨c.imgOff, c.size, Phos.pages c.size, iv⟩
  advance iv c := iv + BitVec.ofNat 64 (Phos.pages c.size)
  looks := 2
  amount plan := BitVec.ofNat 64 plan.size

/-- In every state that some turns of the two threads lead to, whatever the slots and the
buffers held before. -/
def AlwaysDelivers {Item Desc : Type} (code : Code Item (BitVec 64) Desc (BitVec 64)) : Prop :=
  ∀ items ivBase slots (buffers : Bool → Image) labels s,
    execute (HandOff.next code items) (start items slots buffers ivBase 0) labels = some s →
      Delivers code items ivBase s

end FlashCkpt.Emul
