import Polar.Ringbuf.Tape
import Polar.Wal.Decode

/-!
# WAL-meta packets

What `polar_queue_manager.c` stores of a WAL record in a packet and how it decodes the packet. For
the resource managers whose records are replayed block by block only the headers are kept, followed
for some record types by a piece of main data; the other records are stored as they are.
-/

namespace Polar.XlogQueue

open Wal Ringbuf

def rmXlogId : UInt8 := 0
def rmHeap2Id : UInt8 := 9
def rmHeapId : UInt8 := 10
def rmBtreeId : UInt8 := 11
def rmHashId : UInt8 := 12
def rmGinId : UInt8 := 13
def rmGistId : UInt8 := 14
def rmSeqId : UInt8 := 15
def rmSpgistId : UInt8 := 16
def rmBrinId : UInt8 := 17
def rmGenericId : UInt8 := 20

def xlogFpiForHint : UInt8 := 0xA0
def xlogFpi : UInt8 := 0xB0
def polarWal : UInt8 := 0xF0

def xlogHeapOpmask : UInt8 := 0x70
def xlogHeapInsert : UInt8 := 0x00
def xlogHeapDelete : UInt8 := 0x10
def xlogHeapUpdate : UInt8 := 0x20
def xlogHeapHotUpdate : UInt8 := 0x40
def xlogHeapLock : UInt8 := 0x60

def xlogHeap2Rewrite : UInt8 := 0x00
def xlogHeap2PruneOnAccess : UInt8 := 0x10
def xlogHeap2PruneVacuumScan : UInt8 := 0x20
def xlogHeap2PruneVacuumCleanup : UInt8 := 0x30
def xlogHeap2Visible : UInt8 := 0x40
def xlogHeap2MultiInsert : UInt8 := 0x50
def xlogHeap2LockUpdated : UInt8 := 0x60

def xlogGistDelete : UInt8 := 0x10
def xlogGistPageReuse : UInt8 := 0x20
def xlogHashVacuumOnePage : UInt8 := 0xC0
def xlogBtreeDelete : UInt8 := 0x70
def xlogBtreeReusePage : UInt8 := 0xD0
def xlogSpgistVacuumRedirect : UInt8 := 0x80

def sizeOfHeapInsert : Nat := 3
def sizeOfHeapDelete : Nat := 8
def sizeOfHeapUpdate : Nat := 14
def sizeOfHeapLock : Nat := 8
def sizeOfHeapVisible : Nat := 5
def sizeOfHeapMultiInsert : Nat := 4
def sizeOfHeapLockUpdated : Nat := 8
def sizeOfSpgxlogVacuumRedirect : Nat := 10

/-- `POLAR_XLOG_HEAD_SIZE`: the end LSN and the length of the record in the WAL. -/
def xlogHeadSize : Nat := 12

variable (h : XLogRecord)

/-- `polar_xlog_remove_payload`. -/
def removePayload : Bool :=
  if h.rmid = rmHeapId ∨ h.rmid = rmHeap2Id ∨ h.rmid = rmBtreeId ∨ h.rmid = rmHashId ∨
      h.rmid = rmGinId ∨ h.rmid = rmGistId ∨ h.rmid = rmSeqId ∨ h.rmid = rmSpgistId ∨
      h.rmid = rmBrinId ∨ h.rmid = rmGenericId then
    true
  else if h.rmid ≠ rmXlogId then
    false
  else
    h.rmgrInfo = xlogFpi ∨ h.rmgrInfo = xlogFpiForHint ∨ h.rmgrInfo = polarWal

/-- The main data a packet carries besides the headers. -/
inductive Extra where
  | none
  /-- The leading bytes, as many as the fixed part of the record type has. -/
  | fixed (len : Nat)
  /-- All of the main data. -/
  | whole
deriving DecidableEq, Repr

/-- `POLAR_MAIN_DATA_LEN`: block id, length word and data. -/
def polarMainDataLen (len : Nat) : Nat := 1 + 4 + len

/-- The bytes reserved for the extra data of a record with `mainLen` bytes of main data. -/
def Extra.size (mainLen : Nat) : Extra → Nat
  | .none => 0
  | .fixed len => polarMainDataLen len
  | .whole => polarMainDataLen mainLen

/-! ### The switch of `polar_reserve_data_size` -/

variable (info : UInt8)

def reserveXlogData : Extra := if info = polarWal then .whole else .none

/-- `polar_reserve_heap_data_size`. -/
def reserveHeapData : Extra :=
  let op := info &&& xlogHeapOpmask
  if op = xlogHeapInsert then .fixed sizeOfHeapInsert
  else if op = xlogHeapDelete then .fixed sizeOfHeapDelete
  else if op = xlogHeapUpdate ∨ op = xlogHeapHotUpdate then .fixed sizeOfHeapUpdate
  else if op = xlogHeapLock then .fixed sizeOfHeapLock
  else .none

/-- `polar_reserve_heap2_data_size`. -/
def reserveHeap2Data : Extra :=
  let op := info &&& xlogHeapOpmask
  if op = xlogHeap2PruneOnAccess ∨ op = xlogHeap2PruneVacuumScan ∨
      op = xlogHeap2PruneVacuumCleanup then .whole
  else if op = xlogHeap2Visible then .fixed sizeOfHeapVisible
  else if op = xlogHeap2MultiInsert then .fixed sizeOfHeapMultiInsert
  else if op = xlogHeap2LockUpdated then .fixed sizeOfHeapLockUpdated
  else if op = xlogHeap2Rewrite then .whole
  else .none

/-- The test joins two inequalities by `||`, so it always succeeds. -/
def reserveGistData : Extra :=
  if info ≠ xlogGistDelete ∨ info ≠ xlogGistPageReuse then .none else .whole

def reserveHashData : Extra :=
  if info ≠ xlogHashVacuumOnePage then .none else .whole

def reserveBtreeData : Extra :=
  if info = xlogBtreeDelete ∨ info = xlogBtreeReusePage then .whole else .none

def reserveSpgData : Extra :=
  if info ≠ xlogSpgistVacuumRedirect then .none else .fixed sizeOfSpgxlogVacuumRedirect

/-- `polar_reserve_data_size`. -/
def reserveData : Extra :=
  if h.rmid = rmHeapId then reserveHeapData h.rmgrInfo
  else if h.rmid = rmHeap2Id then reserveHeap2Data h.rmgrInfo
  else if h.rmid = rmGistId then reserveGistData h.rmgrInfo
  else if h.rmid = rmHashId then reserveHashData h.rmgrInfo
  else if h.rmid = rmBtreeId then reserveBtreeData h.rmgrInfo
  else if h.rmid = rmSpgistId then reserveSpgData h.rmgrInfo
  else if h.rmid = rmXlogId then reserveXlogData h.rmgrInfo
  else .none

/-- `polar_xlog_reserve_size`: `hdrLen` is the length of the first chunk. -/
def reserveSize (hdrLen mainLen : Nat) : Nat :=
  (if removePayload h then hdrLen else h.totLen.toNat) + (reserveData h).size mainLen

/-! ### The switch of `polar_xlog_send_queue_push_data` -/

def pushXlogData : Extra := if info = polarWal then .whole else .none

/-- `polar_xlog_push_heap_data`. -/
def pushHeapData : Extra :=
  let op := info &&& xlogHeapOpmask
  if op = xlogHeapInsert then .fixed sizeOfHeapInsert
  else if op = xlogHeapDelete then .fixed sizeOfHeapDelete
  else if op = xlogHeapUpdate ∨ op = xlogHeapHotUpdate then .fixed sizeOfHeapUpdate
  else if op = xlogHeapLock then .fixed sizeOfHeapLock
  else .none

/-- `polar_xlog_push_heap2_data`. -/
def pushHeap2Data : Extra :=
  let op := info &&& xlogHeapOpmask
  if op = xlogHeap2PruneOnAccess ∨ op = xlogHeap2PruneVacuumScan ∨
      op = xlogHeap2PruneVacuumCleanup then .whole
  else if op = xlogHeap2Visible then .fixed sizeOfHeapVisible
  else if op = xlogHeap2MultiInsert then .fixed sizeOfHeapMultiInsert
  else if op = xlogHeap2LockUpdated then .fixed sizeOfHeapLockUpdated
  else if op = xlogHeap2Rewrite then .whole
  else .none

def pushGistData : Extra :=
  if info ≠ xlogGistDelete ∨ info ≠ xlogGistPageReuse then .none else .whole

def pushHashData : Extra :=
  if info ≠ xlogHashVacuumOnePage then .none else .whole

def pushBtreeData : Extra :=
  if info = xlogBtreeDelete ∨ info = xlogBtreeReusePage then .whole else .none

def pushSpgData : Extra :=
  if info ≠ xlogSpgistVacuumRedirect then .none else .fixed sizeOfSpgxlogVacuumRedirect

def pushData : Extra :=
  if h.rmid = rmHeapId then pushHeapData h.rmgrInfo
  else if h.rmid = rmHeap2Id then pushHeap2Data h.rmgrInfo
  else if h.rmid = rmGistId then pushGistData h.rmgrInfo
  else if h.rmid = rmHashId then pushHashData h.rmgrInfo
  else if h.rmid = rmBtreeId then pushBtreeData h.rmgrInfo
  else if h.rmid = rmSpgistId then pushSpgData h.rmgrInfo
  else if h.rmid = rmXlogId then pushXlogData h.rmgrInfo
  else .none

/-- Both switches select the same data. -/
theorem pushData_eq_reserveData : pushData h = reserveData h := rfl

/-! ### Writing the packet -/

/-- What stops a push. -/
inductive PushError where
  /-- `elog(PANIC, "Failed to write packet to ringbuf, ..")`. -/
  | failedToWrite
  /-- `elog(PANIC, "Failed to push data to send queue, ..")`, with the length left. -/
  | failedToPush (left : Int)
  /-- A read past the end of a chunk or of the chain. -/
  | badRead
deriving DecidableEq, Repr

/-- `polar_ringbuf_pkt_write` on a packet whose length is set. -/
def pktWrite (pk : Packet) (offset : Int) (buf : List UInt8) : Int × Packet :=
  if offset < 0 ∨ offset ≥ pk.len.toNat ∨ offset + buf.length > pk.len.toNat then
    (-1, pk)
  else
    (buf.length, pk.wrote offset.toNat buf)

/-- `POLAR_WRITE_MAIN_DATA`: the data is taken from the first chunk of the main data. -/
def writeMainData (mainData : List (List UInt8)) (dlen : Nat) (offset : Int) (pk : Packet) :
    Except PushError (Int × Packet) :=
  match mainData with
  | [] => .error .badRead
  | chunk :: _ =>
    let (len₁, pk) := pktWrite pk offset [xlrBlockIdPolarExtra]
    let (len₂, pk) := pktWrite pk (offset + len₁) (Bytes.ofNat 4 dlen)
    let len := len₁ + len₂
    if chunk.length < dlen then .error .badRead
    else
      let (len₃, pk) := pktWrite pk (offset + len) (chunk.take dlen)
      .ok (len + len₃, pk)

/-- The loop of `polar_push_main_data` over the chunks; the test compares unsigned numbers. -/
def pushChunks (dataLen : Nat) (offset : Int) : Int → List (List UInt8) → Packet →
    Except PushError (Int × Packet)
  | len, [], pk => if len % 2 ^ 32 < dataLen then .error .badRead else .ok (len, pk)
  | len, chunk :: chunks, pk =>
    if len % 2 ^ 32 < dataLen then
      let (n, pk) := pktWrite pk (offset + len) chunk
      pushChunks dataLen offset (len + n) chunks pk
    else
      .ok (len, pk)

/-- `polar_push_main_data`: the length word holds the size of the whole extra part. -/
def pushMainData (mainData : List (List UInt8)) (mainLen : Nat) (offset : Int) (pk : Packet) :
    Except PushError (Int × Packet) :=
  let dataLen := polarMainDataLen mainLen % 2 ^ 32
  let (len₁, pk) := pktWrite pk offset [xlrBlockIdPolarExtra]
  let (len₂, pk) := pktWrite pk (offset + len₁) (Bytes.ofNat 4 dataLen)
  pushChunks dataLen offset (len₁ + len₂) mainData pk

/-- `polar_xlog_send_queue_push_data`. -/
def sendQueuePushData (mainData : List (List UInt8)) (mainLen : Nat)
    (offset : Int) (pk : Packet) : Except PushError (Int × Packet) :=
  match pushData h with
  | .none => .ok (0, pk)
  | .fixed dlen => writeMainData mainData dlen offset pk
  | .whole => pushMainData mainData mainLen offset pk

/-- The copy loop of `polar_xlog_send_queue_push`; `copy_len - data_size` is unsigned. -/
def copyChunks (dataSize : Nat) : Int → Int → List (List UInt8) → Packet →
    Except PushError (Int × Int × Packet)
  | copyLen, offset, [], pk => .ok (copyLen, offset, pk)
  | copyLen, offset, chunk :: chunks, pk =>
    let left := (copyLen - dataSize) % 2 ^ 64
    if left > 0 then
      let writeLen := min left.toNat chunk.length
      let (copySize, pk) := pktWrite pk offset (chunk.take writeLen)
      if copySize ≠ writeLen then
        .error .failedToWrite
      else
        copyChunks dataSize (copyLen - writeLen) (offset + writeLen) chunks pk
    else
      .ok (copyLen, offset, pk)

/-- `polar_xlog_send_queue_push` of the record with header `h` and chain `rdata`. -/
def sendQueuePush (rdata mainData : List (List UInt8)) (copyLen : Int)
    (endLsn : UInt64) (xlogLen : UInt32) (pk : Packet) : Except PushError Packet := do
  let mainLen := mainData.flatten.length
  let dataSize := (reserveData h).size mainLen
  let (n₁, pk) := pktWrite pk 0 (Bytes.ofNat 8 endLsn.toNat)
  let (n₂, pk) := pktWrite pk n₁ (Bytes.ofNat 4 xlogLen.toNat)
  let (copyLen, offset, pk) ← copyChunks dataSize copyLen (n₁ + n₂) rdata pk
  let (len, pk) ← sendQueuePushData h mainData mainLen offset pk
  if copyLen - len ≠ 0 then .error (.failedToPush (copyLen - len))
  else .ok (pk.publish (pktWalMeta ||| pktReady))

/-! ### Decoding the packet -/

/-- A decoded packet, with the number of bytes read past the end of the packet. -/
structure QueueDecoded extends DecodedXLogRecord where
  overrun : Nat
deriving DecidableEq, Repr

/-- The record under construction in `polar_xlog_queue_decode`. -/
structure QueueState extends HeaderState where
  mainData : List UInt8 := []
  overrun : Nat := 0
deriving DecidableEq, Repr

open Reader

/-- The block id of the extra data: copy as many bytes as the length word says, without a test
against the packet's end, beyond which the buffer holds `beyond`. -/
def readExtra (beyond : Nat → UInt8) (st : QueueState) : Reader DecodeError QueueState := do
  let len ← nat .panic 4
  let rest ← get
  set (rest.drop len)
  check (rest.drop len).isEmpty .panic
  return { st with
    mainData := rest.take len ++ Ring.slice beyond 0 (len - rest.length)
    overrun := len - rest.length }

/-- The loop of `polar_xlog_queue_decode` over the headers of a packet without payload. -/
def queueHeaders (beyond : Nat → UInt8) : Nat → QueueState → Reader DecodeError QueueState
  | 0, _ => throw .fuel
  | fuel + 1, st => do
      let rest ← get
      if rest.length > 0 then
        let id ← byte .panic
        if id = xlrBlockIdDataShort then
          let _ ← take .panic 1
          queueHeaders beyond fuel st
        else if id = xlrBlockIdDataLong then
          let _ ← take .panic 4
          queueHeaders beyond fuel st
        else if id = xlrBlockIdOrigin then
          let _ ← take .panic 2
          queueHeaders beyond fuel st
        else if id = xlrBlockIdToplevelXid then
          let _ ← take .panic 4
          queueHeaders beyond fuel st
        else if id = xlrBlockIdPolarExtra then
          let st ← readExtra beyond st
          queueHeaders beyond fuel st
        else
          check (id ≤ xlrMaxBlockId) .panic
          let hst ← readBlock .panic id st.toHeaderState
          queueHeaders beyond fuel { st with toHeaderState := hst }
      else
        return st

/-- The decoded record before its headers are read. -/
def QueueDecoded.ofHeader (header : XLogRecord) : QueueDecoded where
  header := header
  blocks := []
  origin := 0
  toplevelXid := 0
  mainData := []
  metaSize := 0
  overrun := 0

/-- `polar_xlog_queue_decode` on the packet data after its head. -/
def queueDecodeRecord (decodePayload : Bool) (beyond : Nat → UInt8) :
    Reader DecodeError QueueDecoded := do
  let bytes ← get
  let header ← readHeader .panic
  if removePayload header then
    let st ← queueHeaders beyond bytes.length {}
    return { QueueDecoded.ofHeader header with
      blocks := st.blocks.map fun ref => ⟨ref, [], []⟩
      mainData := st.mainData
      overrun := st.overrun }
  else if !decodePayload then
    return .ofHeader header
  else
    match decodeXLogRecord bytes with
    | .error e => throw e
    | .ok d => return { d with overrun := 0 }

/-- The record alone, without the rest of the packet. -/
def queueDecode (decodePayload : Bool) (beyond : Nat → UInt8) (bytes : List UInt8) :
    Except DecodeError QueueDecoded :=
  (queueDecodeRecord decodePayload beyond bytes).map (·.1)

end Polar.XlogQueue
