import Mathlib.Algebra.GroupWithZero.Nat
import Mathlib.Logic.Function.Basic
import Mathlib.Tactic.Common

/-!
# A logindex table

A table maps page tags to the LSNs of the records that touch the page. Its memory is an array of
equally sized segments. A tag owns one item head, found through a hash chain, and a doubly linked
list of further segments; `idxOrder` keeps the order in which the LSNs arrived. All LSNs of a
table share the upper 32 bits, so only the lower ones are stored.

The accessors return `none` where the source meets a `NULL` pointer, a failed `POLAR_ASSERT_PANIC`
or an error report.
-/

namespace Polar.Logindex

/-- `LOG_INDEX_MEM_TBL_SEG_NUM`. -/
def memTblSegNum : Nat := 4096

/-- `LOG_INDEX_MEM_TBL_HASH_NUM`. -/
def memTblHashNum : Nat := memTblSegNum / 2

/-- `LOG_INDEX_TBL_INVALID_SEG`. -/
def invalidSeg : Nat := 0

/-- `InvalidXLogRecPtr`. -/
def invalidLsn : Nat := 0

/-- `LOG_INDEX_TABLE_INVALID_ID`. -/
def invalidTableId : Nat := 0

/-- `UINT64_MAX`, the `min_lsn` of a table without LSNs. -/
def uint64Max : Nat := 2 ^ 64 - 1

/-- `LOG_INDEX_ITEM_HEAD_LSN_NUM`. -/
def itemHeadLsnNum : Nat := 2

/-- `LOG_INDEX_ITEM_SEG_LSN_NUM`. -/
def itemSegLsnNum : Nat := 10

/-- `BufferTag`. -/
structure BufferTag where
  spcOid : Nat
  dbOid : Nat
  relNumber : Nat
  forkNum : Int
  blockNum : Nat
  deriving DecidableEq, Repr

/-- `LOG_INDEX_MEM_TBL_HASH_PAGE`, for the hash function of the server. -/
def hashPage (tagHash : BufferTag → Nat) (tag : BufferTag) : Nat :=
  tagHash tag % memTblHashNum

/-- A page tag with one of its LSNs. -/
structure Entry where
  tag : BufferTag
  lsn : Nat
  deriving DecidableEq, Repr

/-- `log_index_lsn_info_t`. -/
structure LsnInfo extends Entry where
  prevLsn : Nat
  deriving DecidableEq, Repr

/-- `log_item_head_t`; the field `number` is the length of `suffixLsn`. -/
structure ItemHead where
  headSeg : Nat
  nextItem : Nat
  nextSeg : Nat
  tailSeg : Nat
  tag : BufferTag
  prevPageLsn : Nat
  suffixLsn : List Nat
  deriving DecidableEq

/-- `log_item_seg_t`; the field `number` is the length of `suffixLsn`. -/
structure ItemSeg where
  headSeg : Nat
  nextSeg : Nat
  prevSeg : Nat
  suffixLsn : List Nat
  deriving DecidableEq

/-- The union `log_tbl_seg_t`, with the zeroed segment as a case of its own. -/
inductive TblSeg where
  | free
  | itemHead (head : ItemHead)
  | itemSeg (seg : ItemSeg)
  deriving DecidableEq

/-- `log_index_table_t`; `last_order` is the length of `idxOrder`, and segments are addressed by
their ids, which start from 1. -/
structure Table where
  idxTableId : Nat
  minLsn : Nat
  maxLsn : Nat
  prefixLsn : Nat
  idxOrder : List Nat
  hash : Nat → Nat
  segment : Nat → TblSeg

namespace Table

/-- A zeroed table. -/
def zero : Table :=
  { idxTableId := 0, minLsn := 0, maxLsn := 0, prefixLsn := 0, idxOrder := [],
    hash := fun _ => invalidSeg, segment := fun _ => .free }

variable (t : Table)

/-- The number of LSNs in the table. -/
def lastOrder : Nat := t.idxOrder.length

def setSegment (id : Nat) (seg : TblSeg) : Table :=
  { t with segment := Function.update t.segment id seg }

/-- `LOG_INDEX_COMBINE_LSN`. -/
def combineLsn (suffix : Nat) : Nat :=
  t.prefixLsn <<< 32 ||| suffix

/-- `LOG_INDEX_SAME_TABLE_LSN_PREFIX`. -/
def samePrefix (lsn : Nat) : Bool :=
  t.prefixLsn == lsn >>> 32

/-- `log_index_item_head`. -/
def itemHead (t : Table) (id : Nat) : Option ItemHead :=
  if id = invalidSeg then none
  else match t.segment id with
    | .itemHead head => some head
    | _ => none

/-- `log_index_item_seg`. -/
def itemSeg (t : Table) (id : Nat) : Option ItemSeg :=
  if id = invalidSeg then none
  else match t.segment id with
    | .itemSeg seg => some seg
    | _ => none

/-- The field `head_seg`, which both members of the union start with. -/
def headSegOf (id : Nat) : Option Nat :=
  if id = invalidSeg then none
  else match t.segment id with
    | .itemHead head => some head.headSeg
    | .itemSeg seg => some seg.headSeg
    | .free => none

/-- The LSN suffixes of a segment, read as an item head when it is its own `head_seg`. -/
def suffixesOf (id : Nat) : Option (List Nat) :=
  (t.headSegOf id).bind fun headSeg =>
    if headSeg = id then (t.itemHead id).map (·.suffixLsn)
    else (t.itemSeg id).map (·.suffixLsn)

/-- The loop of `log_index_mem_tbl_exists_page` over a hash chain. -/
def existsPageFrom (t : Table) (tag : BufferTag) : Nat → Nat → Nat
  | 0, id => id
  | fuel + 1, id =>
    match t.itemHead id with
    | none => id
    | some item => if item.tag = tag then id else existsPageFrom t tag fuel item.nextItem

/-- `log_index_mem_tbl_exists_page`. A chain visits every segment at most once. -/
def existsPage (tag : BufferTag) (key : Nat) : Nat :=
  t.existsPageFrom tag memTblSegNum (t.hash key)

/-- `log_index_tbl_find`. -/
def tblFind (tag : BufferTag) (key : Nat) : Option ItemHead :=
  t.itemHead (t.existsPage tag key)

/-- `log_index_mem_seg_full`. -/
def memSegFull (head : Nat) : Option Bool :=
  (t.itemHead head).bind fun item =>
    if item.tailSeg = head then
      some (item.suffixLsn.length == itemHeadLsnNum)
    else
      (t.itemSeg item.tailSeg).map fun seg => seg.suffixLsn.length == itemSegLsnNum

/-- `LOG_INDEX_INSERT_LSN_INFO`: store the lower half of an LSN after the present ones. -/
def insertLsnInfo (suffixLsn : List Nat) (lsn : Nat) : Option (List Nat) :=
  if suffixLsn.getLast?.all (· < lsn % 2 ^ 32) then some (suffixLsn ++ [lsn % 2 ^ 32]) else none

/-- `log_index_insert_new_item`. -/
def insertNewItem (info : LsnInfo) (key newItemId : Nat) : Table :=
  { t.setSegment newItemId (.itemHead
      { headSeg := newItemId, nextItem := t.hash key, nextSeg := invalidSeg,
        tailSeg := newItemId, tag := info.tag, prevPageLsn := info.prevLsn,
        suffixLsn := [info.lsn % 2 ^ 32] }) with
    hash := Function.update t.hash key newItemId }

/-- The link of `log_index_insert_new_seg` from the present tail to the new segment. -/
def linkTail (head : Nat) (item : ItemHead) (segId : Nat) : Option Table :=
  if item.tailSeg = head then
    some (t.setSegment head (.itemHead { item with nextSeg := segId, tailSeg := segId }))
  else
    (t.itemSeg item.tailSeg).map fun preSeg =>
      (t.setSegment item.tailSeg (.itemSeg { preSeg with nextSeg := segId })).setSegment head
        (.itemHead { item with tailSeg := segId })

/-- `log_index_insert_new_seg`. -/
def insertNewSeg (head segId lsn : Nat) : Option Table :=
  (t.itemHead head).bind fun item =>
    (t.linkTail head item segId).map fun t =>
      t.setSegment segId (.itemSeg
        { headSeg := head, nextSeg := invalidSeg, prevSeg := item.tailSeg,
          suffixLsn := [lsn % 2 ^ 32] })

/-- `log_index_append_lsn`, with the index it returns. -/
def appendLsn (head lsn : Nat) : Option (Table × Nat) :=
  (t.itemHead head).bind fun item =>
    if item.tailSeg = head then
      if item.suffixLsn.length < itemHeadLsnNum then
        (insertLsnInfo item.suffixLsn lsn).map fun suffixLsn =>
          (t.setSegment head (.itemHead { item with suffixLsn }), item.suffixLsn.length)
      else none
    else
      (t.itemSeg item.tailSeg).bind fun seg =>
        if seg.suffixLsn.length < itemSegLsnNum then
          (insertLsnInfo seg.suffixLsn lsn).map fun suffixLsn =>
            (t.setSegment item.tailSeg (.itemSeg { seg with suffixLsn }), seg.suffixLsn.length)
        else none

/-- `LOG_INDEX_SEG_ORDER`. -/
def segOrder (code : Nat) : Nat := code &&& 0x0FFF

/-- `LOG_INDEX_ID_ORDER`. -/
def idOrder (code : Nat) : Nat := (code &&& 0xF000) >>> 12

/-- The value `LOG_INDEX_MEM_TBL_ADD_ORDER` stores. -/
def orderCode (segId idx : Nat) : Nat := (segId &&& 0x0FFF) ||| ((idx <<< 12) &&& 0xF000)

/-- `LOG_INDEX_MEM_TBL_ADD_ORDER`. -/
def addOrder (segId idx : Nat) : Option Table :=
  if segId < memTblSegNum ∧ idx < 0xF000 >>> 12 then
    some { t with idxOrder := t.idxOrder ++ [orderCode segId idx] }
  else none

/-- `log_index_item_max_lsn`. -/
def itemMaxLsn (item : ItemHead) : Option Nat :=
  if item.headSeg = item.tailSeg then
    item.suffixLsn.getLast?.map t.combineLsn
  else
    (t.itemSeg item.tailSeg).bind fun seg => seg.suffixLsn.getLast?.map t.combineLsn

/-- `LOG_INDEX_SEG_MIN_LSN` of an item head. -/
def itemMinLsn (item : ItemHead) : Option Nat :=
  item.suffixLsn.head?.map t.combineLsn

/-- `log_index_get_seg_page_tag`. -/
def getSegPageTag (segId : Nat) : Option BufferTag :=
  (t.headSegOf segId).bind fun headSeg => (t.itemHead headSeg).map (·.tag)

/-- `log_index_get_seg_prev_lsn`. -/
def getSegPrevLsn (segId idx : Nat) : Option Nat :=
  (t.headSegOf segId).bind fun headSeg =>
    if headSeg = segId then
      (t.itemHead segId).bind fun head =>
        if idx = 0 then some head.prevPageLsn
        else head.suffixLsn[idx - 1]?.map t.combineLsn
    else
      (t.itemSeg segId).bind fun seg =>
        if 0 < idx then seg.suffixLsn[idx - 1]?.map t.combineLsn
        else if seg.prevSeg = seg.headSeg then
          (t.itemHead seg.prevSeg).bind fun head => head.suffixLsn.getLast?.map t.combineLsn
        else
          (t.itemSeg seg.prevSeg).bind fun prev => prev.suffixLsn.getLast?.map t.combineLsn

/-- The part of `log_index_get_order_lsn` after its test of `last_order`. -/
def orderLsnInfo (code : Nat) : Option LsnInfo :=
  (t.suffixesOf (segOrder code)).bind fun suffixLsn =>
    suffixLsn[idOrder code]?.bind fun suffix =>
      (t.getSegPrevLsn (segOrder code) (idOrder code)).bind fun prevLsn =>
        (t.getSegPageTag (segOrder code)).map fun tag =>
          { tag, lsn := t.combineLsn suffix, prevLsn }

/-- `log_index_get_order_lsn`; the inner `none` is `InvalidXLogRecPtr`. -/
def getOrderLsn (order : Nat) : Option (Option LsnInfo) :=
  match t.idxOrder[order]? with
  | none => some none
  | some code => (t.orderLsnInfo code).map some

/-- The item heads of a hash chain, in the order `log_index_calc_bloom` visits them. -/
def chainItems (t : Table) : Nat → Nat → List ItemHead
  | 0, _ => []
  | fuel + 1, id =>
    match t.itemHead id with
    | none => []
    | some item => item :: t.chainItems fuel item.nextItem

/-- The item heads of all hash chains. -/
def allItems : List ItemHead :=
  (List.range memTblHashNum).flatMap fun key => t.chainItems memTblSegNum (t.hash key)

end Table

/-- `log_index_table_bloom_t`; of the filter itself only the added tags are kept. -/
structure Bloom where
  idxTableId : Nat
  minLsn : Nat
  maxLsn : Nat
  tags : List BufferTag

/-- The body of the loop of `log_index_calc_bloom`. -/
def Bloom.addItem (t : Table) (bloom : Bloom) (item : ItemHead) : Option Bloom :=
  (t.itemMaxLsn item).bind fun itemMax =>
    (t.itemMinLsn item).map fun itemMin =>
      { bloom with
        maxLsn := max bloom.maxLsn itemMax
        minLsn := min bloom.minLsn itemMin
        tags := item.tag :: bloom.tags }

/-- `log_index_get_bloom_data` with `log_index_calc_bloom`. -/
def Table.getBloomData (t : Table) (tid : Nat) : Option Bloom :=
  t.allItems.foldlM (Bloom.addItem t)
    { idxTableId := tid, minLsn := uint64Max, maxLsn := invalidLsn, tags := [] }

/-- The states of a memory table. -/
inductive TblState where
  | free
  | active
  | inactive
  | flushed
  deriving DecidableEq, Repr

/-- `log_index_mem_table_t`. -/
structure MemTable where
  freeHead : Nat
  state : TblState
  data : Table

namespace MemTable

/-- A zeroed memory table. -/
def zero : MemTable := { freeHead := 0, state := .free, data := .zero }

/-- `LOG_INDEX_MEM_TBL_FULL`. -/
def full (m : MemTable) : Bool := m.freeHead == memTblSegNum

/-- `LOG_INDEX_MEM_TBL_IS_NEW`. -/
def isNew (m : MemTable) : Bool :=
  m.data.maxLsn == invalidLsn && m.data.minLsn == uint64Max &&
    m.data.prefixLsn == invalidLsn && m.freeHead == 1

/-- `LOG_INDEX_MEM_TBL_NEW_ACTIVE` for a table id and the LSN to come. -/
def newActive (m : MemTable) (tid lsn : Nat) : MemTable :=
  { freeHead := 1, state := .active,
    data := { m.data with
      idxTableId := tid, maxLsn := invalidLsn, minLsn := uint64Max, prefixLsn := lsn >>> 32 } }

end MemTable

end Polar.Logindex
