import Polar.Wal.Assemble

/-!
# Decoding of a WAL record

`DecodeXLogRecord`. The parser of a single block header is shared with the decoder of the xlog
queue, whose copy differs in the error raised on short data only.
-/

namespace Polar.Wal

/-- Why a record is refused. -/
inductive DecodeError where
  | shortData
  | outOfOrderBlockId
  | hasDataWithoutData
  | dataWithoutHasData
  | holeWithoutExtent
  | extentWithoutHole
  | compressedFullPage
  | partialPage
  | noPreviousRel
  | invalidBlockId
  /-- `ereport(PANIC, ..)` or a failed `POLAR_ASSERT_PANIC`. -/
  | panic
  /-- The loop bound of the model; never reached. -/
  | fuel
deriving DecidableEq, Repr

/-- The record under construction while the headers are read. -/
structure HeaderState where
  blocks : List BlockRef := []
  /-- `max_block_id + 1`. -/
  nextBlockId : Nat := 0
  rlocator : Option RelFileLocator := none
  origin : UInt16 := 0
  toplevelXid : UInt32 := 0
  mainDataLen : Nat := 0
  datatotal : Nat := 0
deriving DecidableEq, Repr

/-- `DecodedXLogRecord`. -/
structure DecodedXLogRecord where
  header : XLogRecord
  blocks : List DecodedBkpBlock
  origin : UInt16
  toplevelXid : UInt32
  mainData : List UInt8
  /-- The length of all headers, `polar_xlog_meta_size`. -/
  metaSize : Nat
deriving DecidableEq, Repr

open Reader

variable (short : DecodeError)

/-- The fixed-size header. -/
def readHeader : Reader DecodeError XLogRecord := do
  let totLen ← nat short 4
  let xid ← nat short 4
  let prev ← nat short 8
  let info ← byte short
  let rmid ← byte short
  let _ ← byte short
  let _ ← byte short
  let crc ← nat short 4
  return ⟨.ofNat totLen, .ofNat xid, .ofNat prev, info, rmid, .ofNat crc⟩

def readRelFileLocator : Reader DecodeError RelFileLocator := do
  let spcOid ← nat short 4
  let dbOid ← nat short 4
  let relNumber ← nat short 4
  return ⟨.ofNat spcOid, .ofNat dbOid, .ofNat relNumber⟩

/-- The hole length is stored only for a compressed image with a hole. -/
def readHoleLength (bimgLen : Nat) (info : UInt8) :
    Reader DecodeError Nat :=
  if bkpimageCompressed info then
    if hasFlag info bkpimageHasHole then nat short 2 else pure 0
  else
    pure ((blcksz + 65536 - bimgLen) % 65536)

/-- The image headers and their cross-checks. -/
def readImage : Reader DecodeError ImageMeta := do
  let bimgLen ← nat short 2
  let holeOffset ← nat short 2
  let info ← byte short
  let holeLength ← readHoleLength short bimgLen info
  check (!(hasFlag info bkpimageHasHole &&
    (holeOffset == 0 || holeLength == 0 || bimgLen == blcksz))) .holeWithoutExtent
  check (!(!hasFlag info bkpimageHasHole && (holeOffset != 0 || holeLength != 0)))
    .extentWithoutHole
  check (!(bkpimageCompressed info && bimgLen == blcksz)) .compressedFullPage
  check (!(!hasFlag info bkpimageHasHole && !bkpimageCompressed info && bimgLen != blcksz))
    .partialPage
  return ⟨bimgLen, holeOffset, holeLength, info⟩

/-- The image headers of a block that has an image. -/
def readImage? (hasImage : Bool) : Reader DecodeError (Option ImageMeta) :=
  if hasImage then do return some (← readImage short) else pure none

/-- The relation, or that of the previous block. -/
def readRel (sameRel : Bool) (rlocator : Option RelFileLocator) :
    Reader DecodeError RelFileLocator :=
  if !sameRel then readRelFileLocator short
  else
    match rlocator with
    | none => throw .noPreviousRel
    | some r => pure r

/-- Note a block reference. -/
def HeaderState.addRef (st : HeaderState) (ref : BlockRef) : HeaderState :=
  { st with
    blocks := st.blocks ++ [ref]
    nextBlockId := ref.id.toNat + 1
    rlocator := some ref.rlocator
    datatotal := st.datatotal + (ref.dataLen + ref.imageLen) }

/-- A block header after its id. -/
def readBlock (id : UInt8) (st : HeaderState) :
    Reader DecodeError HeaderState := do
  check (decide (st.nextBlockId ≤ id.toNat)) .outOfOrderBlockId
  let flags ← byte short
  let hasImage := hasFlag flags bkpblockHasImage
  let hasData := hasFlag flags bkpblockHasData
  let dataLen ← nat short 2
  check (!(hasData && dataLen == 0)) .hasDataWithoutData
  check (!(!hasData && dataLen != 0)) .dataWithoutHasData
  let image ← readImage? short hasImage
  let rlocator ← readRel short (hasFlag flags bkpblockSameRel) st.rlocator
  let blkno ← nat short 4
  return st.addRef
    { id := id
      forknum := flags &&& bkpblockForkMask
      flags := flags
      hasImage := hasImage
      hasData := hasData
      applyImage := image.elim false fun img => hasFlag img.bimgInfo bkpimageApply
      dataLen := dataLen
      image := image
      rlocator := rlocator
      blkno := .ofNat blkno }

/-- The header loop of `DecodeXLogRecord`; it stops at the main data header or when only the
announced data is left. -/
def decodeHeaders : Nat → HeaderState → Reader DecodeError HeaderState
  | 0, _ => throw .fuel
  | fuel + 1, st => do
      let rest ← get
      if rest.length > st.datatotal then
        let id ← byte .shortData
        if id = xlrBlockIdDataShort then
          let len ← nat .shortData 1
          return { st with mainDataLen := len, datatotal := st.datatotal + len }
        else if id = xlrBlockIdDataLong then
          let len ← nat .shortData 4
          return { st with mainDataLen := len, datatotal := st.datatotal + len }
        else if id = xlrBlockIdOrigin then
          let origin ← nat .shortData 2
          decodeHeaders fuel { st with origin := .ofNat origin }
        else if id = xlrBlockIdToplevelXid then
          let xid ← nat .shortData 4
          decodeHeaders fuel { st with toplevelXid := .ofNat xid }
        else if id ≤ xlrMaxBlockId then
          let st ← readBlock .shortData id st
          decodeHeaders fuel st
        else throw .invalidBlockId
      else
        return st

/-- Copy the image and the data of each block. -/
def readBlocks (short : DecodeError) : List BlockRef → Reader DecodeError (List DecodedBkpBlock)
  | [] => return []
  | ref :: refs => do
      let image ← take short ref.imageLen
      let data ← take short ref.dataLen
      let rest ← readBlocks short refs
      return ⟨ref, image, data⟩ :: rest

/-- `DecodeXLogRecord` on a buffer that starts with a record of `xl_tot_len` bytes. -/
def decodeRecord : Reader DecodeError DecodedXLogRecord := do
  let header ← readHeader .shortData
  modify (·.take (header.totLen.toNat - sizeOfXLogRecord))
  let st ← decodeHeaders header.totLen.toNat {}
  let rest ← get
  check (rest.length == st.datatotal) .shortData
  let blocks ← readBlocks .shortData st.blocks
  let mainData ← take .shortData st.mainDataLen
  return ⟨header, blocks, st.origin, st.toplevelXid, mainData,
    header.totLen.toNat - rest.length⟩

/-- `DecodeXLogRecord`. -/
def decodeXLogRecord (bytes : List UInt8) : Except DecodeError DecodedXLogRecord :=
  (decodeRecord bytes).map (·.1)

end Polar.Wal
