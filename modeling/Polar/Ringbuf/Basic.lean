import Polar.Base.Bytes
import Polar.Base.Ring

/-!
# The ring buffer

The data structure of `polar_ringbuf.h` and the functions of `polar_ringbuf.c`. Positions
(`pread`, `pwrite` and the slots' `pread`) are monotone and never wrap, so they are natural
numbers; every access to `data` goes through `idx`. The reference names and the statistics
counters, which no function here reads, are left out, and `POLAR_RINGBUF_INVALID_PREAD`
(`UINT64_MAX`) is `none`.
-/

namespace Polar.Ringbuf

def maxSlot : Nat := 32

def pktHdrSize : Nat := 5

/-- The whole packet size: packet head and packet data. -/
def pktSize (len : Nat) : Nat := len + pktHdrSize

def pktFree : UInt8 := 0x00
def pktReady : UInt8 := 0x01
def pktStateMask : UInt8 := 0x01
def pktInvalidType : UInt8 := 0x00
def pktWalMeta : UInt8 := 0x10
def pktTypeMask : UInt8 := 0xF0

/-- `polar_ringbuf_slot_t`. -/
structure Slot where
  strong : Bool
  pread : Nat
  refNum : Nat
deriving DecidableEq, Repr

/-- A slot after `MemSet(.., 0, ..)`. -/
def Slot.zero : Slot := ⟨false, 0, 0⟩

/-- `polar_ringbuf_ref_t`, the part a process keeps. -/
structure Ref where
  refNum : Nat
  slot : Nat
  strong : Bool
deriving DecidableEq, Repr

end Polar.Ringbuf

namespace Polar

open Ringbuf Option Function

/-- `polar_ringbuf_data_t`. Bit `i + 1` of `occupied` is `occupied i`. -/
structure Ringbuf where
  pread : Nat
  pwrite : Nat
  refNum : Nat
  occupied : Nat → Bool
  slot : Nat → Slot
  size : Nat
  data : Nat → UInt8

namespace Ringbuf

/-- `polar_ringbuf_init`; the counter `ref_num` keeps what the memory held before. -/
def init (size refNum : Nat) : Ringbuf where
  pread := 0
  pwrite := 0
  refNum := refNum
  occupied := fun _ => false
  slot := fun _ => Slot.zero
  size := size
  data := fun _ => pktFree

variable (rb : Ringbuf)

/-- `POLAR_RINGBUF_IDX`. -/
def idx (pos : Nat) : Nat := pos % rb.size

/-- `polar_ringbuf_get_pkt_length`. -/
def getPktLength (pos : Nat) : Nat :=
  Bytes.toNat (Ring.read rb.size rb.data (rb.idx (pos + 1)) 4)

/-- `polar_ringbuf_set_pkt_length`. -/
def setPktLength (pos : Nat) (len : UInt32) : Ringbuf :=
  { rb with data := Ring.write rb.size rb.data (rb.idx (pos + 1)) (Bytes.ofNat 4 len.toNat) }

/-- Advance `pwrite` without any test of the free space; the old value is the packet's start. -/
def pktReserve (len : Nat) : Nat × Ringbuf :=
  (rb.pwrite, { rb with pwrite := rb.pwrite + len })

/-- The loop test of `polar_ringbuf_wait_for_space` that lets a producer proceed. -/
def spaceFor (pos len : Nat) : Bool :=
  ((pos + len : Nat) : Int) - rb.pread ≤ (rb.size : Int) - 1

variable (ref : Ref)

/-- The packet type, or the invalid type while the ready bit is clear, and the packet length. -/
def nextPktType : UInt8 × Nat :=
  let pos := (rb.slot ref.slot).pread
  let phys := rb.idx pos
  if rb.data phys &&& pktStateMask ≠ pktReady then
    (pktInvalidType, 0)
  else
    (rb.data phys &&& pktTypeMask, rb.getPktLength pos)

/-- `polar_ringbuf_set_pkt_flag`. -/
def setPktFlag (pos : Nat) (flag : UInt8) : Ringbuf :=
  { rb with data := update rb.data (rb.idx pos) flag }

/-- `RINGBUF_REF_MATCH`. -/
def refMatch : Bool :=
  ref.slot < maxSlot && (rb.slot ref.slot).refNum == ref.refNum

/-- Take the least unoccupied slot, at the ring buffer's own read position. -/
def newRef (strong : Bool) : Option (Ref × Ringbuf) :=
  match (List.range maxSlot).find? fun i => !rb.occupied i with
  | none => none
  | some i =>
    let num := rb.refNum + 1
    some (⟨num, i, strong⟩,
      { rb with
        occupied := update rb.occupied i true
        slot := update rb.slot i ⟨strong, rb.pread, num⟩
        refNum := num })

/-- Clear the slot and its bit; part of `polar_ringbuf_release_ref` and of the eviction. -/
def freeSlot (i : Nat) : Ringbuf :=
  { rb with
    occupied := update rb.occupied i false
    slot := update rb.slot i Slot.zero }

/-- `polar_ringbuf_set_ref_strong_property`. -/
def setRefStrongProperty (strong : Bool) : Bool × Ringbuf :=
  if rb.refMatch ref then
    (true, { rb with
      slot := update rb.slot ref.slot { rb.slot ref.slot with strong := strong } })
  else
    (false, rb)

/-- Read packet data from `offset` on; `none` is the source's `-1`. -/
def readNextPkt (offset len : Nat) : Option (List UInt8) :=
  let pos := (rb.slot ref.slot).pread
  let pktlen := rb.getPktLength pos
  if offset ≥ pktlen then
    none
  else
    let len := if offset + len > pktlen then pktlen - offset else len
    some (Ring.read rb.size rb.data (rb.idx (pos + pktHdrSize + offset)) len)

/-- The type and the data a reader gets for the packet at its position. -/
def nextPkt : UInt8 × List UInt8 :=
  let (type, len) := rb.nextPktType ref
  (type, (rb.readNextPkt ref 0 len).getD [])

/-- Write packet data at `offset`; `none` is the source's `-1`, which writes nothing. -/
def pktWrite (pos offset : Nat) (buf : List UInt8) : Option Ringbuf :=
  let pktlen := rb.getPktLength pos
  if offset ≥ pktlen ∨ offset + buf.length > pktlen then
    none
  else
    some { rb with
      data := Ring.write rb.size rb.data (rb.idx (pos + pktHdrSize + offset)) buf }

theorem pktWrite_eq_some {pos offset : Nat} {buf : List UInt8} {rb' : Ringbuf}
    (h : rb.pktWrite pos offset buf = some rb') : ∃ data, rb' = { rb with data := data } := by
  simp only [pktWrite] at h
  split at h
  · cases h
  · exact ⟨_, (some.inj h).symm⟩

/-- The slots in use, in the order `POLAR_BIT_LEAST_POS` delivers them. -/
def occupiedSlots : List Nat := (List.range maxSlot).filter rb.occupied

/-- One turn of the scan of `polar_ringbuf_update_pread`. -/
def scanSlot (min : Option Nat) (i : Nat) : Option Nat :=
  match min with
  | none => some (rb.slot i).pread
  | some m => if m > (rb.slot i).pread then some (rb.slot i).pread else some m

/-- A turn of the scan takes the least of the slot's position and the value so far. -/
theorem scanSlot_spec (min : Option Nat) (i : Nat) :
    ∃ m, rb.scanSlot min i = some m ∧ m ≤ (rb.slot i).pread ∧ ∀ m', min = some m' → m ≤ m' := by
  cases min with
  | none => exact ⟨_, rfl, Nat.le_refl _, nofun⟩
  | some m =>
    simp only [scanSlot, some.injEq, forall_eq']
    split
    · exact ⟨_, rfl, Nat.le_refl _, by omega⟩
    · exact ⟨_, rfl, by omega, Nat.le_refl _⟩

theorem scanSlot_cases {min : Option Nat} {i m : Nat} (h : rb.scanSlot min i = some m) :
    m = (rb.slot i).pread ∨ min = some m := by
  cases min with
  | none => exact Or.inl (some.inj h).symm
  | some m' =>
    simp only [scanSlot] at h
    split at h
    · exact Or.inl (some.inj h).symm
    · exact Or.inr h

/-- Clear the region freed when the read position moves up to `min`. -/
def clearFreed (min : Nat) : Ringbuf :=
  { rb with data := Ring.clear rb.size rb.data (rb.idx rb.pread) (rb.idx min) pktFree }

/-- `polar_ringbuf_update_ref`. -/
def updateRef : Ringbuf :=
  let pos := (rb.slot ref.slot).pread
  { rb with
    slot := update rb.slot ref.slot
      { rb.slot ref.slot with pread := pos + (pktHdrSize + rb.getPktLength pos) } }

/-- One turn of the search for the weak slot with the least read position. -/
def scanWeak (best : Option (Nat × Nat)) (i : Nat) : Option (Nat × Nat) :=
  if (rb.slot i).strong then
    best
  else
    match best with
    | none => some (i, (rb.slot i).pread)
    | some (j, m) => if m > (rb.slot i).pread then some (i, (rb.slot i).pread) else some (j, m)

/-- Evict the weak reference that holds the read position back, if there is one. -/
def evictRef : Option Ringbuf :=
  match rb.occupiedSlots.foldl rb.scanWeak none with
  | none => none
  | some (i, min) => if rb.pread = min then some (rb.freeSlot i) else none

theorem evictRef_eq_some {rb' : Ringbuf} (h : rb.evictRef = some rb') :
    ∃ i, rb' = rb.freeSlot i := by
  unfold evictRef at h
  split at h
  · cases h
  · split at h
    · exact ⟨_, (some.inj h).symm⟩
    · cases h

end Ringbuf

end Polar
