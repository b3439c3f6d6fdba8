import Polar.Logindex.Snapshot

/-!
# The page iterator

`polar_logindex_create_page_iterator` walks the tables from the newest to the oldest and each
item of the page from its last LSN to its first, and pushes the LSNs of its range on stacks;
`polar_logindex_page_iterator_next` pops them. An outer `none` is an error of the server.
-/

namespace Polar.Logindex

/-- `log_index_iter_state_t`. -/
inductive IterState where
  | forward
  | backward
  | finished
  | hollow
  | corrupted
  deriving DecidableEq, Repr

/-- `LOG_INDEX_PAGE_STACK_ITEM_SIZE`. -/
def pageStackItemSize : Nat := 64

/-- `log_index_page_lsn_t`; the field `item_size` is the length of `lsn`. -/
structure PageLsn where
  lsn : List Nat
  iterPos : Nat
  prevLsn : Nat

/-- `log_index_tbl_stack_lsn_t`, the newest item first. -/
structure TblStack where
  prevPageLsn : Nat
  items : List PageLsn

namespace TblStack

/-- `log_index_tbl_stack_next_item`, with the LSN and its predecessor put into the item. -/
def push (stack : TblStack) (lsn prevLsn : Nat) : TblStack :=
  match stack.items with
  | [] => { stack with items := [⟨[lsn], 1, prevLsn⟩] }
  | item :: items =>
    if item.lsn.length = pageStackItemSize then
      { stack with items := ⟨[lsn], 1, prevLsn⟩ :: item :: items }
    else
      { stack with items := ⟨item.lsn ++ [lsn], item.lsn.length + 1, prevLsn⟩ :: items }

/-- `log_index_tbl_stack_pop_lsn`: the LSN, its predecessor and what is left. -/
def popLsn (stack : TblStack) : Option ((Nat × Nat) × TblStack) :=
  match stack.items with
  | [] => none
  | item :: items =>
    let idx := item.iterPos - 1
    let prevLsn :=
      if item.iterPos = item.lsn.length then item.prevLsn else item.lsn.getD (idx + 1) invalidLsn
    let items :=
      if item.iterPos - 1 = 0 then items else { item with iterPos := item.iterPos - 1 } :: items
    some ((item.lsn.getD idx invalidLsn, prevLsn), { stack with items })

end TblStack

/-- `log_index_page_iter_t`, the newest table stack first. -/
structure PageIter where
  tag : BufferTag
  minLsn : Nat
  maxLsn : Nat
  iterPrevLsn : Nat
  iterMaxLsn : Nat
  maxIdxTableId : Nat
  lsnStack : List TblStack
  key : Nat
  state : IterState

namespace PageIter

/-- The loop of `log_index_page_iterate_push_lsn` over the LSNs of a segment, the last one first,
with the flag `prev_correct`. -/
def pushLsnLoop (t : Table) (segId : Nat) (suffixLsn : List Nat) :
    Nat → PageIter → TblStack → Bool → Option (PageIter × TblStack × Bool)
  | 0, iter, stack, prevCorrect => some (iter, stack, prevCorrect)
  | idx + 1, iter, stack, prevCorrect =>
    suffixLsn[idx]?.bind fun suffix =>
      let l := t.combineLsn suffix
      let prevCorrect := prevCorrect || l == iter.iterPrevLsn
      if iter.minLsn ≤ l ∧ l ≤ iter.iterMaxLsn then
        if prevCorrect then
          (t.getSegPrevLsn segId idx).bind fun prevLsn =>
            let stack := stack.push l prevLsn
            if l = iter.minLsn then some ({ iter with state := .finished }, stack, prevCorrect)
            else pushLsnLoop t segId suffixLsn idx iter stack prevCorrect
        else none
      else if l < iter.minLsn then
        if prevCorrect then some ({ iter with state := .finished }, stack, prevCorrect)
        else none
      else pushLsnLoop t segId suffixLsn idx iter stack prevCorrect

/-- `log_index_page_iterate_push_lsn`. -/
def pageIteratePushLsn (t : Table) (segId : Nat) (iter : PageIter) (stack : TblStack)
    (prevCorrect : Bool) : Option (PageIter × TblStack × Bool) :=
  (t.suffixesOf segId).bind fun suffixLsn =>
    pushLsnLoop t segId suffixLsn suffixLsn.length iter stack prevCorrect

/-- The loop of `log_index_iterate_table_data` from the last segment of an item to its head. -/
def iterateSegs (t : Table) (item : ItemHead) :
    Nat → Nat → PageIter → TblStack → Bool → Option (PageIter × TblStack)
  | 0, _, _, _, _ => none
  | fuel + 1, segId, iter, stack, prevCorrect =>
    if segId = item.headSeg then
      if iter.state = .forward then
        (pageIteratePushLsn t segId iter stack prevCorrect).map fun (iter, stack, _) =>
          (iter, stack)
      else some (iter, stack)
    else
      (t.itemSeg segId).bind fun seg =>
        if seg.suffixLsn = [] then none
        else
          (pageIteratePushLsn t segId iter stack prevCorrect).bind
            fun (iter, stack, prevCorrect) =>
              if iter.state = .forward then
                iterateSegs t item fuel seg.prevSeg iter stack prevCorrect
              else some (iter, stack)

variable (iter : PageIter)

/-- `log_index_iterate_table_data`; a chain has every segment at most once. -/
def iterateTableData (t : Table) (item : ItemHead) : Option PageIter :=
  if item.suffixLsn = [] then none
  else
    (iterateSegs t item memTblSegNum item.tailSeg iter ⟨item.prevPageLsn, []⟩
      (iter.iterPrevLsn == invalidLsn)).map fun (iter, stack) =>
        { iter with lsnStack := stack :: iter.lsnStack }

/-- The LSN that the next table with LSNs of the page has to have. -/
def linkPrev : PageIter :=
  match iter.lsnStack with
  | [] => iter
  | prev :: _ =>
    if prev.prevPageLsn ≠ invalidLsn then { iter with iterPrevLsn := prev.prevPageLsn } else iter

/-- `log_index_push_tbl_lsn`. -/
def pushTblLsn (t : Table) : Option PageIter :=
  match t.tblFind iter.tag iter.key with
  | none => some iter
  | some item =>
    (t.itemMinLsn item).bind fun minLsn =>
      (t.itemMaxLsn item).bind fun maxLsn =>
        let iter := iter.linkPrev
        if minLsn > iter.maxLsn then some iter
        else if maxLsn < iter.minLsn then some { iter with state := .finished }
        else
          (iter.iterateTableData t item).map fun iter =>
            { iter with iterMaxLsn := (maxLsn + 1) % 2 ^ 64 }

/-- `log_index_table_in_range`. -/
def tableInRange (m : MemTable) : PageIter × Bool :=
  if m.state = .active then (iter, true)
  else if m.data.minLsn > iter.maxLsn then (iter, false)
  else if m.data.maxLsn < iter.minLsn then ({ iter with state := .finished }, false)
  else (iter, true)

/-- The loop of `log_index_push_mem_tbl_lsn`; the id of the table is the fuel. -/
def pushMemTblLoop (s : Snapshot) : Nat → Nat → PageIter → Option (PageIter × Nat)
  | 0, _, iter => some (iter, invalidTableId)
  | tid + 1, mid, iter =>
    let m := s.memTable mid
    if m.data.idxTableId = tid + 1 ∧ m.state ≠ .free then
      let (iter, inRange) := iter.tableInRange m
      (if inRange then iter.pushTblLsn m.data else some iter).bind fun iter =>
        if iter.state = .forward then pushMemTblLoop s tid (s.prevId mid) iter
        else some (iter, tid)
    else some (iter, tid + 1)

/-- `log_index_push_mem_tbl_lsn`. -/
def pushMemTblLsn (s : Snapshot) (iter : PageIter) : Option (PageIter × Nat) :=
  (pushMemTblLoop s iter.maxIdxTableId (slotOf s.memTblSize iter.maxIdxTableId) iter).map
    fun (iter, tid) =>
      (if tid = invalidTableId then { iter with state := .finished } else iter, tid)

variable (lacks : Bloom → BufferTag → Bool)

/-- `log_index_check_bloom_not_exists`; `lacks` is `bloom_lacks_element`. -/
def checkBloomNotExists (s : Snapshot) (iter : PageIter)
    (tid : Nat) : Option (PageIter × Bool) :=
  (s.storage.bloom tid).bind fun bloom =>
    if tid ≠ bloom.idxTableId then none
    else if bloom.maxLsn < iter.minLsn then some ({ iter with state := .finished }, false)
    else some (iter, lacks bloom iter.tag)

/-- A turn of the loop of `log_index_push_file_tbl_lsn`. Reading a table may put it into its
slot. -/
def pushFileTbl (s : Snapshot) (iter : PageIter) (tid : Nat) :
    Option (Snapshot × PageIter) :=
  let m := s.memTable (slotOf s.memTblSize tid)
  if m.state = .flushed ∧ m.data.idxTableId = tid then
    (iter.pushTblLsn m.data).map fun iter => (s, iter)
  else
    (checkBloomNotExists lacks s iter tid).bind fun (iter, notExists) =>
      if notExists = false ∧ iter.state = .forward then
        (s.readTable tid).bind fun (s, t, _) => (iter.pushTblLsn t).map fun iter => (s, iter)
      else some (s, iter)

/-- The loop of `log_index_push_file_tbl_lsn`; the id of the table is the fuel. -/
def pushFileTblLoop (lacks : Bloom → BufferTag → Bool) (minTid : Nat) :
    Nat → Snapshot → PageIter → Option (Snapshot × PageIter)
  | 0, s, iter => some (s, iter)
  | tid + 1, s, iter =>
    if minTid ≤ tid + 1 ∧ iter.state = .forward then
      (pushFileTbl lacks s iter (tid + 1)).bind fun (s, iter) =>
        pushFileTblLoop lacks minTid tid s iter
    else some (s, iter)

/-- The part of `log_index_check_hollow_table` that reads the meta data again for a table it does
not cover. -/
def refreshMeta (s : Snapshot) (tid : Nat) : Snapshot :=
  if s.metaData.maxIdxTableId < tid then { s with metaData := s.storage.metaFile } else s

/-- `log_index_push_file_tbl_lsn`. -/
def pushFileTblLsn (s : Snapshot) (iter : PageIter)
    (tid : Nat) : Option (Snapshot × PageIter) :=
  let s := refreshMeta s tid
  if s.metaData.maxIdxTableId < tid then none
  else pushFileTblLoop lacks s.metaData.minSegmentInfo.minIdxTableId tid s iter

/-- The iterator before any table is scanned. -/
def start (tagHash : BufferTag → Nat) (s : Snapshot) (tag : BufferTag) (minLsn maxLsn : Nat) :
    PageIter :=
  { tag, minLsn, maxLsn, iterPrevLsn := invalidLsn, iterMaxLsn := maxLsn,
    maxIdxTableId := s.maxIdxTableId, lsnStack := [], key := hashPage tagHash tag,
    state := .forward }

/-- `polar_logindex_create_page_iterator`. -/
def create (tagHash : BufferTag → Nat) (lacks : Bloom → BufferTag → Bool) (s : Snapshot)
    (tag : BufferTag) (minLsn maxLsn : Nat) : Option (Snapshot × PageIter) :=
  if minLsn < maxLsn then
    (pushMemTblLsn s (start tagHash s tag minLsn maxLsn)).bind fun (iter, tid) =>
      if iter.state = .forward then
        (pushFileTblLsn lacks s iter tid).map fun (s, iter) =>
          (s, { iter with state := .finished })
      else some (s, iter)
  else none

/-- The loop of `polar_logindex_page_iterator_next` over the table stacks. -/
def popStacks : List TblStack → Option ((Nat × Nat) × List TblStack)
  | [] => none
  | stack :: tblStacks =>
    match stack.popLsn with
    | some (lsn, stack) => some (lsn, stack :: tblStacks)
    | none => popStacks tblStacks

/-- `polar_logindex_page_iterator_next`; `none` is `NULL`. -/
def next : PageIter × Option LsnInfo :=
  match popStacks iter.lsnStack with
  | some ((lsn, prevLsn), lsnStack) =>
    ({ iter with lsnStack }, some { tag := iter.tag, lsn, prevLsn })
  | none => ({ iter with lsnStack := [] }, none)

/-- Call `polar_logindex_page_iterator_next` until it returns `NULL`; `none` when that takes more
than the given number of calls. -/
def drain : Nat → PageIter → Option (List LsnInfo)
  | 0, _ => none
  | calls + 1, iter =>
    match iter.next with
    | (_, none) => some []
    | (iter, some info) => (drain calls iter).map (info :: ·)

end PageIter

end Polar.Logindex
