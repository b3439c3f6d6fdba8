import Polar.Base.Ring
import Polar.Base.Reader

/-!
# WAL records

The structures of `xlogrecord.h` and `xlogreader.h`, and the byte images in which their headers
stand in a WAL record. Numbers are little-endian.
-/

namespace Polar.Wal

def blcksz : Nat := 8192

/-- `RelFileLocator`. -/
structure RelFileLocator where
  spcOid : UInt32
  dbOid : UInt32
  relNumber : UInt32
deriving DecidableEq, Repr

/-- `XLogRecord`, the fixed-size header. -/
structure XLogRecord where
  totLen : UInt32
  xid : UInt32
  prev : UInt64
  info : UInt8
  rmid : UInt8
  crc : UInt32
deriving DecidableEq, Repr

def sizeOfXLogRecord : Nat := 24

def xlrInfoMask : UInt8 := 0x0F
def xlrCheckConsistency : UInt8 := 0x02

def xlrMaxBlockId : UInt8 := 32
def xlrBlockIdDataShort : UInt8 := 255
def xlrBlockIdDataLong : UInt8 := 254
def xlrBlockIdOrigin : UInt8 := 253
def xlrBlockIdToplevelXid : UInt8 := 252
def xlrBlockIdPolarExtra : UInt8 := 251

def bkpblockForkMask : UInt8 := 0x0F
def bkpblockHasImage : UInt8 := 0x10
def bkpblockHasData : UInt8 := 0x20
def bkpblockWillInit : UInt8 := 0x40
def bkpblockSameRel : UInt8 := 0x80

def bkpimageHasHole : UInt8 := 0x01
def bkpimageApply : UInt8 := 0x02
def bkpimageCompressPglz : UInt8 := 0x04
def bkpimageCompressLz4 : UInt8 := 0x08
def bkpimageCompressZstd : UInt8 := 0x10

/-- A flag bit is set. -/
def hasFlag (flags bit : UInt8) : Bool := flags &&& bit != 0

/-- `BKPIMAGE_COMPRESSED`. -/
def bkpimageCompressed (info : UInt8) : Bool :=
  hasFlag info (bkpimageCompressPglz ||| bkpimageCompressLz4 ||| bkpimageCompressZstd)

/-- What a block reference says about its full-page image. -/
structure ImageMeta where
  bimgLen : Nat
  holeOffset : Nat
  holeLength : Nat
  bimgInfo : UInt8
deriving DecidableEq, Repr

/-- A block reference as it stands in `DecodedBkpBlock`. The image fields, which the decoders set
only for a block with an image, are `none` otherwise. -/
structure BlockRef where
  id : UInt8
  forknum : UInt8
  flags : UInt8
  hasImage : Bool
  hasData : Bool
  applyImage : Bool
  dataLen : Nat
  image : Option ImageMeta
  rlocator : RelFileLocator
  blkno : UInt32
deriving DecidableEq, Repr

/-- The number of bytes of the block's image in the record. -/
def BlockRef.imageLen (ref : BlockRef) : Nat := ref.image.elim 0 (·.bimgLen)

/-- A decoded block: the reference and the copies of its image and data. -/
structure DecodedBkpBlock where
  ref : BlockRef
  bkpImage : List UInt8
  data : List UInt8
deriving DecidableEq, Repr

namespace RelFileLocator

def bytes (r : RelFileLocator) : List UInt8 :=
  Bytes.ofNat 4 r.spcOid.toNat ++ (Bytes.ofNat 4 r.dbOid.toNat ++
    Bytes.ofNat 4 r.relNumber.toNat)

end RelFileLocator

namespace XLogRecord

variable (h : XLogRecord)

/-- The header's image; two bytes of padding precede the CRC. -/
def bytes : List UInt8 :=
  Bytes.ofNat 4 h.totLen.toNat ++ (Bytes.ofNat 4 h.xid.toNat ++ (Bytes.ofNat 8 h.prev.toNat ++
    (h.info :: h.rmid :: 0 :: 0 :: Bytes.ofNat 4 h.crc.toNat)))

@[simp] theorem length_bytes : h.bytes.length = sizeOfXLogRecord := by
  simp [bytes, sizeOfXLogRecord]

/-- The record type, without the bits XLogInsert itself uses. -/
def rmgrInfo : UInt8 := h.info &&& ~~~xlrInfoMask

end XLogRecord

/-- The image headers after `XLogRecordBlockHeader`. -/
def ImageMeta.bytes (img : ImageMeta) : List UInt8 :=
  Bytes.ofNat 2 img.bimgLen ++ (Bytes.ofNat 2 img.holeOffset ++ (img.bimgInfo ::
    if img.holeLength ≠ 0 ∧ bkpimageCompressed img.bimgInfo then
      Bytes.ofNat 2 img.holeLength
    else []))

/-- The image of a block header: `XLogRecordBlockHeader`, the image headers if there is an image,
the relation unless it is the previous block's, and the block number. -/
def BlockRef.bytes (ref : BlockRef) : List UInt8 :=
  ref.id :: ref.flags :: (Bytes.ofNat 2 ref.dataLen ++
    (ref.image.elim [] ImageMeta.bytes ++
      ((if hasFlag ref.flags bkpblockSameRel then [] else ref.rlocator.bytes) ++
        Bytes.ofNat 4 ref.blkno.toNat)))

end Polar.Wal
