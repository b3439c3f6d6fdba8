import Polar.Wal.Record

/-!
# Construction of a WAL record

`XLogRecordAssemble`: from the registered buffers and the registered main data to a chain of
chunks, the first of which holds all headers.
-/

namespace Polar.Wal

def regbufForceImage : UInt8 := 0x01
def regbufNoImage : UInt8 := 0x02
def regbufWillInit : UInt8 := 0x04 ||| 0x02
def regbufStandard : UInt8 := 0x08
def regbufKeepData : UInt8 := 0x10

def sizeOfPageHeaderData : Nat := 24

def xlogRecordMaxSize : Nat := 1020 * 1024 * 1024

/-- `WalCompression`, other than none. -/
inductive WalCompression where
  | pglz
  | lz4
  | zstd
deriving DecidableEq, Repr

/-- The flag that records the compression method. -/
def WalCompression.flag : WalCompression → UInt8
  | .pglz => bkpimageCompressPglz
  | .lz4 => bkpimageCompressLz4
  | .zstd => bkpimageCompressZstd

/-- `registered_buffer`. `XLogRegisterBufData` refuses to register more than 65535 bytes. -/
structure RegisteredBuffer where
  flags : UInt8
  rlocator : RelFileLocator
  forkno : Fin 16
  block : UInt32
  page : Nat → UInt8
  rdata : List (List UInt8)
  rdata_le : rdata.flatten.length ≤ 65535

/-- What `XLogRecordAssemble` reads: its arguments, the registrations and the settings. -/
structure Insertion where
  rmid : UInt8
  info : UInt8
  xid : UInt32
  redoRecPtr : Nat
  doPageWrites : Bool
  /-- `wal_consistency_checking[rmid]`. -/
  consistencyChecking : Bool
  /-- `wal_compression` and the compressor, which may fail. -/
  compression : Option (WalCompression × (List UInt8 → Option (List UInt8)))
  /-- `registered_buffers`; the index is the block id. -/
  buffers : List (Option RegisteredBuffer)
  buffers_le : buffers.length ≤ 33
  origin : Option UInt16
  toplevelXid : Option UInt32
  mainData : List (List UInt8)

/-- A block reference with the chunks of its image and data. -/
structure AssembledBlock where
  ref : BlockRef
  image : List (List UInt8)
  data : List (List UInt8)

namespace RegisteredBuffer

variable (buf : RegisteredBuffer)

/-- `PageGetLSN`. -/
def pageLsn : Nat :=
  Bytes.toNat (Ring.slice buf.page 0 4) * 2 ^ 32 + Bytes.toNat (Ring.slice buf.page 4 4)

def pdLower : Nat := Bytes.toNat (Ring.slice buf.page 12 2)
def pdUpper : Nat := Bytes.toNat (Ring.slice buf.page 14 2)

/-- Offset and length of the hole between `pd_lower` and `pd_upper` of a standard page. -/
def hole : Nat × Nat :=
  if hasFlag buf.flags regbufStandard ∧ buf.pdLower ≥ sizeOfPageHeaderData ∧
      buf.pdUpper > buf.pdLower ∧ buf.pdUpper ≤ blcksz then
    (buf.pdLower, buf.pdUpper - buf.pdLower)
  else
    (0, 0)

/-- The page without its hole. -/
def imageChunks : List (List UInt8) :=
  let stop := buf.hole.1 + buf.hole.2
  if buf.hole.2 = 0 then
    [Ring.slice buf.page 0 blcksz]
  else
    [Ring.slice buf.page 0 buf.hole.1, Ring.slice buf.page stop (blcksz - stop)]

/-- `XLogCompressBackupBlock`: the result is used only if it saves more than it costs. -/
def compressBackupBlock (compress : List UInt8 → Option (List UInt8)) : Option (List UInt8) :=
  let extraBytes := if buf.hole.2 ≠ 0 then 2 else 0
  match compress buf.imageChunks.flatten with
  | none => none
  | some dest => if dest.length + extraBytes < blcksz - buf.hole.2 then some dest else none

/-- The block gets a full-page image. -/
def needsBackup (ins : Insertion) : Bool :=
  if hasFlag buf.flags regbufForceImage then true
  else if hasFlag buf.flags regbufNoImage then false
  else if !ins.doPageWrites then false
  else buf.pageLsn ≤ ins.redoRecPtr

/-- The block gets its data. -/
def needsData (ins : Insertion) : Bool :=
  if buf.rdata.flatten.length = 0 then false
  else if hasFlag buf.flags regbufKeepData then true
  else !buf.needsBackup ins

end RegisteredBuffer

namespace Insertion

variable (ins : Insertion)

/-- The info bits, with the consistency check forced by the setting. -/
def fullInfo : UInt8 :=
  if ins.consistencyChecking then ins.info ||| xlrCheckConsistency else ins.info

/-- The full-page image of a buffer: what the header says and the chunks to be logged. -/
def image (buf : RegisteredBuffer) : ImageMeta × List (List UInt8) :=
  let holeOffset := buf.hole.1
  let holeLength := buf.hole.2
  let info := (if holeLength = 0 then 0 else bkpimageHasHole) |||
    (if buf.needsBackup ins then bkpimageApply else 0)
  match ins.compression.bind fun c => (buf.compressBackupBlock c.2).map fun d => (c.1, d) with
  | some (method, dest) =>
    (⟨dest.length, holeOffset, holeLength, info ||| method.flag⟩, [dest])
  | none => (⟨blcksz - holeLength, holeOffset, holeLength, info⟩, buf.imageChunks)

/-- The header and the chunks of one registered buffer; `prev` is the relation of the one before. -/
def assembleBlock (prev : Option RelFileLocator) (id : Nat) (buf : RegisteredBuffer) :
    AssembledBlock :=
  let includeImage := buf.needsBackup ins || hasFlag ins.fullInfo xlrCheckConsistency
  let needsData := buf.needsData ins
  let flags := UInt8.ofNat buf.forkno.val |||
    (if buf.flags &&& regbufWillInit = regbufWillInit then bkpblockWillInit else 0) |||
    (if includeImage then bkpblockHasImage else 0) |||
    (if needsData then bkpblockHasData else 0) |||
    (if prev = some buf.rlocator then bkpblockSameRel else 0)
  { ref :=
      { id := UInt8.ofNat id
        forknum := UInt8.ofNat buf.forkno.val
        flags := flags
        hasImage := includeImage
        hasData := needsData
        applyImage := includeImage && buf.needsBackup ins
        dataLen := if needsData then buf.rdata.flatten.length else 0
        image := if includeImage then some (ins.image buf).1 else none
        rlocator := buf.rlocator
        blkno := buf.block }
    image := if includeImage then (ins.image buf).2 else []
    data := if needsData then buf.rdata else [] }

/-- All registered buffers in use, from the given id on. -/
def assembleBlocks : Option RelFileLocator → Nat → List (Option RegisteredBuffer) →
    List AssembledBlock
  | _, _, [] => []
  | prev, id, none :: bufs => assembleBlocks prev (id + 1) bufs
  | prev, id, some buf :: bufs =>
    ins.assembleBlock prev id buf :: assembleBlocks (some buf.rlocator) (id + 1) bufs

/-- The blocks of the record. -/
def blocks : List AssembledBlock := ins.assembleBlocks none 0 ins.buffers

def mainDataLen : Nat := ins.mainData.flatten.length

/-- The replication origin, if there is one. -/
def originHeader : List UInt8 :=
  match ins.origin with
  | none => []
  | some origin => xlrBlockIdOrigin :: Bytes.ofNat 2 origin.toNat

/-- The top-level xid, if it is logged. -/
def toplevelXidHeader : List UInt8 :=
  match ins.toplevelXid with
  | none => []
  | some xid => xlrBlockIdToplevelXid :: Bytes.ofNat 4 xid.toNat

/-- `XLogRecordDataHeaderShort` or `XLogRecordDataHeaderLong`, if there is main data. -/
def mainDataHeader : List UInt8 :=
  if ins.mainDataLen = 0 then []
  else if ins.mainDataLen > 255 then xlrBlockIdDataLong :: Bytes.ofNat 4 ins.mainDataLen
  else xlrBlockIdDataShort :: Bytes.ofNat 1 ins.mainDataLen

/-- The headers after the block headers: origin, top-level xid and main data length. -/
def trailer : List UInt8 := ins.originHeader ++ (ins.toplevelXidHeader ++ ins.mainDataHeader)

/-- All headers but the fixed-size one. -/
def headers : List UInt8 := ins.blocks.flatMap (·.ref.bytes) ++ ins.trailer

/-- The chunks of block images and block data. -/
def blockChunks : List (List UInt8) := ins.blocks.flatMap fun b => b.image ++ b.data

/-- The length of the whole record. -/
def totalLen : Nat :=
  sizeOfXLogRecord + ins.headers.length + ins.blockChunks.flatten.length + ins.mainDataLen

/-- `XLogRecordAssemble` raises an error for a larger record. -/
def fits : Prop := ins.totalLen ≤ xlogRecordMaxSize

/-- The fixed-size header with the back link and checksum `XLogInsertRecord` fills in. -/
def header (prev : UInt64) (crc : UInt32) : XLogRecord where
  totLen := UInt32.ofNat ins.totalLen
  xid := ins.xid
  prev := prev
  info := ins.fullInfo
  rmid := ins.rmid
  crc := crc

/-- The chain of chunks handed to `XLogInsertRecord`. -/
def rdata (prev : UInt64) (crc : UInt32) : List (List UInt8) :=
  ((ins.header prev crc).bytes ++ ins.headers) :: (ins.blockChunks ++ ins.mainData)

end Insertion

end Polar.Wal
