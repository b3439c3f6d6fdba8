import Polar.Logindex.Table

/-!
# The logindex snapshot

A ring of memory tables receives the LSNs; the tables that are no longer active are saved to
storage in the order of their ids, and the slot of a saved table is taken again for a new one.
The slot of a saved table may also serve as a cache of another saved table. The model is that of
the node that writes logindex tables, whose locks are free when a call begins.
-/

namespace Polar.Logindex

/-- `LOG_INDEX_TABLE_NUM_PER_FILE`. -/
def tableNumPerFile : Nat := 64

/-- `LOG_INDEX_FILE_TABLE_SEGMENT_NO`. -/
def fileTableSegmentNo (tid : Nat) : Nat := (tid - 1) / tableNumPerFile

/-- The slot of a table id: `tid - 1` in 64 bits, modulo the number of slots. -/
def slotOf (memTblSize tid : Nat) : Nat :=
  (if tid = invalidTableId then uint64Max else tid - 1) % memTblSize

/-- `log_index_file_segment_t`. -/
structure FileSegment where
  segmentNo : Nat
  maxLsn : Nat
  maxIdxTableId : Nat
  minIdxTableId : Nat
  deriving DecidableEq, Repr

/-- `log_index_meta_t`. A meta file that does not exist reads as zeros. -/
structure MetaData where
  maxIdxTableId : Nat
  minSegmentInfo : FileSegment
  startLsn : Nat
  maxLsn : Nat
  deriving DecidableEq, Repr

namespace MetaData

/-- The meta data of `log_index_write_table` after saving a table. -/
def addTable (metaData : MetaData) (tid maxLsn : Nat) : MetaData :=
  let segmentNo := min metaData.minSegmentInfo.segmentNo (fileTableSegmentNo tid)
  let minSegment := { metaData.minSegmentInfo with segmentNo }
  { metaData with
    maxIdxTableId := max metaData.maxIdxTableId tid
    maxLsn := max metaData.maxLsn maxLsn
    minSegmentInfo :=
      if segmentNo = fileTableSegmentNo tid then
        { segmentNo
          maxLsn := max maxLsn minSegment.maxLsn
          maxIdxTableId := max tid minSegment.maxIdxTableId
          minIdxTableId := segmentNo * tableNumPerFile + 1 }
      else minSegment }

/-- The meta data as `log_index_write_meta` writes it. -/
def withStart (metaData : MetaData) : MetaData :=
  if metaData.maxLsn ≠ invalidLsn then { metaData with startLsn := metaData.maxLsn } else metaData

end MetaData

/-- The files of a snapshot: the meta file, and by table id the tables and their bloom data. -/
structure Storage where
  metaFile : MetaData
  table : Nat → Option Table
  bloom : Nat → Option Bloom

/-- `log_index_snapshot_t` with its files; `adding` is the flag `POLAR_LOGINDEX_STATE_ADDING`. -/
structure Snapshot where
  memTblSize : Nat
  memTable : Nat → MemTable
  activeTable : Nat
  maxIdxTableId : Nat
  maxLsn : Nat
  adding : Bool
  metaData : MetaData
  storage : Storage

namespace Snapshot

/-- A snapshot without tables, once `polar_logindex_set_start_lsn` has set the first LSN. -/
def init (memTblSize startLsn : Nat) : Snapshot :=
  let metaData : MetaData :=
    { maxIdxTableId := 0, minSegmentInfo := ⟨0, 0, 0, 0⟩, startLsn, maxLsn := 0 }
  { memTblSize, memTable := fun _ => .zero, activeTable := 0, maxIdxTableId := 0, maxLsn := 0,
    adding := false, metaData,
    storage := { metaFile := metaData, table := fun _ => none, bloom := fun _ => none } }

variable (s : Snapshot)

def setMemTable (mid : Nat) (m : MemTable) : Snapshot :=
  { s with memTable := Function.update s.memTable mid m }

/-- `LOG_INDEX_MEM_TBL_NEXT_ID`. -/
def nextId (mid : Nat) : Nat :=
  if mid = s.memTblSize - 1 then 0 else mid + 1

/-- `LOG_INDEX_MEM_TBL_PREV_ID`. -/
def prevId (mid : Nat) : Nat :=
  if mid = 0 then s.memTblSize - 1 else mid - 1

/-! ## Saving tables -/

/-- `log_index_write_meta`. -/
def writeMeta (metaData : MetaData) : Snapshot :=
  { s with
    metaData := metaData.withStart
    storage := { s.storage with metaFile := metaData.withStart } }

/-- `log_index_write_table_data`: the bloom data is saved before the table. -/
def writeTableData (t : Table) : Option (Snapshot × Table) :=
  (t.getBloomData t.idxTableId).map fun bloom =>
    let saved := { t with minLsn := bloom.minLsn, maxLsn := bloom.maxLsn }
    ({ s with storage := { s.storage with
        bloom := Function.update s.storage.bloom t.idxTableId (some bloom)
        table := Function.update s.storage.table t.idxTableId (some saved) } }, saved)

/-- `log_index_write_table`. Saving an active table leaves the meta data alone. -/
def writeTable (mid : Nat) : Option Snapshot :=
  let m := s.memTable mid
  if m.data.idxTableId = s.metaData.maxIdxTableId + 1 then
    (s.writeTableData m.data).map fun (s, saved) =>
      if m.state = .active then s
      else
        (s.writeMeta (s.metaData.addTable m.data.idxTableId saved.maxLsn)).setMemTable mid
          { m with data := saved, state := .flushed }
  else some s

/-- One turn of the loop of `log_index_flush_table`. -/
def flushTable (flushActive : Bool) : Option Snapshot :=
  let mid := s.metaData.maxIdxTableId % s.memTblSize
  let m := s.memTable mid
  if m.state = .inactive ∨ (flushActive ∧ m.state = .active ∧ ¬ m.isNew) then s.writeTable mid
  else some s

/-! ## Inserting LSNs -/

/-- The part of a turn of `log_index_wait_active` that saves and clears the slot. -/
def reclaim (mid : Nat) : Option Snapshot :=
  (if (s.memTable mid).state = .inactive then s.writeTable mid else some s).map fun s =>
    if (s.memTable mid).state = .flushed then s.setMemTable mid .zero else s

/-- A turn of the loop of `log_index_wait_active`; `none` when the wait goes on. -/
def waitActive (mid lsn : Nat) : Option Snapshot :=
  (s.reclaim mid).bind fun s =>
    let s :=
      if (s.memTable mid).state = .free then
        { s.setMemTable mid ((s.memTable mid).newActive (s.maxIdxTableId + 1) lsn) with
          maxIdxTableId := s.maxIdxTableId + 1 }
      else s
    if (s.memTable mid).state = .active ∧ ¬ (s.memTable mid).full then some s else none

/-- The step of `log_index_next_free_seg` that takes a segment of the active table. -/
def takeSeg (m : MemTable) : Snapshot × Nat :=
  (s.setMemTable s.activeTable { m with freeHead := m.freeHead + 1 }, m.freeHead)

/-- The loop of `log_index_next_free_seg`. -/
def nextFreeSegLoop (lsn : Nat) : Nat → Snapshot → Option (Snapshot × Nat)
  | 0, _ => none
  | fuel + 1, s =>
    let m := s.memTable s.activeTable
    if m.state = .active then
      if m.isNew then
        some (s.takeSeg { m with data := { m.data with prefixLsn := lsn >>> 32 } })
      else if m.full ∨ ¬ m.data.samePrefix lsn then
        let nextMemId := s.nextId s.activeTable
        ((s.setMemTable s.activeTable { m with state := .inactive }).waitActive
          nextMemId lsn).bind fun s =>
            nextFreeSegLoop lsn fuel { s with activeTable := nextMemId }
      else some (s.takeSeg m)
    else
      (s.waitActive s.activeTable lsn).bind fun s => nextFreeSegLoop lsn fuel s

/-- `log_index_next_free_seg`. The table a turn has waited for has a segment for the next turn. -/
def nextFreeSeg (lsn : Nat) : Option (Snapshot × Nat) :=
  nextFreeSegLoop lsn 2 s

/-- The update of the LSN ranges at the end of `log_index_insert_lsn`. -/
def noteLsn (t : Table) (lsn : Nat) : Snapshot :=
  let m := s.memTable s.activeTable
  let maxLsn := max lsn t.maxLsn
  { s.setMemTable s.activeTable
      { m with data := { t with maxLsn, minLsn := min lsn t.minLsn } } with
    maxLsn }

/-- `log_index_insert_lsn`. -/
def insertLsn (info : LsnInfo) (key : Nat) : Option Snapshot :=
  let t := (s.memTable s.activeTable).data
  let head :=
    if (s.memTable s.activeTable).state = .active ∧ t.samePrefix info.lsn then
      t.existsPage info.tag key
    else invalidSeg
  (if head = invalidSeg then some true else t.memSegFull head).bind fun full =>
    if full then
      (s.nextFreeSeg info.lsn).bind fun (s', dst) =>
        let t' := (s'.memTable s'.activeTable).data
        (if head = invalidSeg ∨ s'.activeTable ≠ s.activeTable then
            some (t'.insertNewItem info key dst)
          else t'.insertNewSeg head dst info.lsn).bind fun t' =>
            (t'.addOrder dst 0).map fun t' => s'.noteLsn t' info.lsn
    else
      (t.appendLsn head info.lsn).bind fun (t, idx) =>
        (t.itemHead head).bind fun item =>
          (t.addOrder item.tailSeg idx).map fun t => s.noteLsn t info.lsn

/-- The loop of `log_index_exists_in_saved_table`. -/
def existsInTable (t : Table) (e : Entry) : Nat → Option Bool
  | 0 => some false
  | i + 1 =>
    (t.getOrderLsn i).bind fun saved =>
      match saved with
      | none => some false
      | some info =>
        if info.lsn ≠ e.lsn then some false
        else if e.tag = info.tag then some true
        else existsInTable t e i

/-- `log_index_exists_in_saved_table`. -/
def existsInSavedTable (e : Entry) : Option Bool :=
  let m := s.memTable (s.prevId s.activeTable)
  if m.state ≠ .flushed then some false
  else existsInTable m.data e m.data.lastOrder

/-- `polar_logindex_add_lsn`. -/
def addLsn (tagHash : BufferTag → Nat) (s : Snapshot) (info : LsnInfo) : Option Snapshot :=
  if info.prevLsn < info.lsn then
    if s.adding then
      s.insertLsn info (hashPage tagHash info.tag)
    else if info.lsn < s.metaData.startLsn ∨ info.lsn < s.metaData.maxLsn then
      some s
    else
      (if s.metaData.maxLsn = info.lsn then s.existsInSavedTable info.toEntry
        else some false).bind fun exists' =>
          if exists' then some s
          else { s with adding := true }.insertLsn info (hashPage tagHash info.tag)
  else none

/-! ## Reading saved tables -/

/-- What the segment files hold for a table id that the meta data covers. -/
def savedTable (tid : Nat) : Option Table :=
  if tid ≤ s.metaData.maxIdxTableId then s.storage.table tid else none

/-- `log_index_read_table`, with the memory table that holds the result, if one does. -/
def readTable (tid : Nat) : Option (Snapshot × Table × Option MemTable) :=
  let mid := slotOf s.memTblSize tid
  let m := s.memTable mid
  if m.state = .flushed ∧ m.data.idxTableId = tid then
    some (s, m.data, some m)
  else
    (s.savedTable tid).map fun t =>
      (if m.state = .flushed then s.setMemTable mid { m with data := t } else s, t, none)

/-! ## Truncation -/

/-- `log_index_update_min_segment`. -/
def updateMinSegment : Option Snapshot :=
  let segmentNo := s.metaData.minSegmentInfo.segmentNo + 1
  let minIdxTableId := segmentNo * tableNumPerFile + 1
  (if fileTableSegmentNo s.metaData.maxIdxTableId = segmentNo then
      some { segmentNo, minIdxTableId, maxIdxTableId := s.metaData.maxIdxTableId,
             maxLsn := s.metaData.maxLsn }
    else
      let maxIdxTableId := (segmentNo + 1) * tableNumPerFile
      (s.storage.table maxIdxTableId).map fun t =>
        { segmentNo, minIdxTableId, maxIdxTableId, maxLsn := t.maxLsn }).map
    fun minSegmentInfo => s.writeMeta { s.metaData with minSegmentInfo }

/-- `log_index_truncate_tbl`: the segment file is removed, or renamed for a segment to come. -/
def truncateTbl (segmentNo : Nat) : Snapshot :=
  { s with storage := { s.storage with
      table := fun tid =>
        if fileTableSegmentNo tid = segmentNo then none else s.storage.table tid } }

/-- The loop of `log_index_truncate`; every turn moves the least segment. -/
def truncateLoop (lsn : Nat) : Nat → Snapshot → Option Snapshot
  | 0, s => some s
  | fuel + 1, s =>
    let minSegment := s.metaData.minSegmentInfo
    if s.metaData.maxLsn = invalidLsn ∨ minSegment.maxLsn = invalidLsn ∨
        lsn ≤ minSegment.maxLsn ∨
        fileTableSegmentNo s.metaData.maxIdxTableId = minSegment.segmentNo then
      some s
    else
      s.updateMinSegment.bind fun s => truncateLoop lsn fuel (s.truncateTbl minSegment.segmentNo)

/-- `polar_logindex_truncate`. -/
def truncate (lsn : Nat) : Option Snapshot :=
  if lsn = invalidLsn then some s else truncateLoop lsn s.metaData.maxIdxTableId s

/-! ## Starting again -/

/-- The loop of `polar_load_logindex_snapshot_from_storage` over the saved tables. -/
def loadTables (minTid startLsn : Nat) : Nat → Snapshot → Option Snapshot
  | 0, s => some s
  | tid + 1, s =>
    if tid + 1 < minTid then some s
    else
      (s.storage.table (tid + 1)).bind fun t =>
        let s := s.setMemTable (slotOf s.memTblSize (tid + 1))
          { freeHead := memTblSegNum, state := .flushed, data := t }
        if startLsn ≠ invalidLsn ∧ t.minLsn ≤ startLsn then some s
        else loadTables minTid startLsn tid s

/-- The least table id that is loaded. -/
def loadMinTid (memTblSize : Nat) (metaData : MetaData) : Nat :=
  let minTid :=
    if metaData.maxIdxTableId > memTblSize then
      max (metaData.maxIdxTableId - memTblSize + 1) metaData.minSegmentInfo.minIdxTableId
    else metaData.minSegmentInfo.minIdxTableId
  if minTid = invalidTableId then metaData.maxIdxTableId else minTid

/-- `polar_logindex_snapshot_init` on the files of an earlier run, with
`polar_load_logindex_snapshot_from_storage`. -/
def restart (checkpointLsn : Nat) : Option Snapshot :=
  let metaData := s.storage.metaFile
  let maxTid := metaData.maxIdxTableId
  let s : Snapshot :=
    { s with
      memTable := fun _ => .zero, activeTable := maxTid % s.memTblSize, maxIdxTableId := maxTid,
      maxLsn := metaData.maxLsn, adding := false, metaData }
  if maxTid = invalidTableId then some s
  else
    (loadTables (loadMinTid s.memTblSize metaData) checkpointLsn maxTid s).bind fun s =>
      { s with maxLsn := (s.memTable ((maxTid - 1) % s.memTblSize)).data.maxLsn }.waitActive
        s.activeTable invalidLsn

/-! ## Operations -/

/-- The calls that change a snapshot, and the start of the server on its files. Iterators of any
process read saved tables, which may put them into a slot. -/
inductive Op where
  | add (e : Entry)
  | flush (flushActive : Bool)
  | truncate (lsn : Nat)
  | read (tid : Nat)
  | restart (checkpointLsn : Nat)

/-- Every insertion of the server passes `InvalidXLogRecPtr` for the LSN before. -/
def step (tagHash : BufferTag → Nat) (s : Snapshot) : Op → Option Snapshot
  | .add e => s.addLsn tagHash ⟨e, invalidLsn⟩
  | .flush flushActive => s.flushTable flushActive
  | .truncate lsn => s.truncate lsn
  | .read tid => (s.readTable tid).map (·.1)
  | .restart checkpointLsn => s.restart checkpointLsn

end Snapshot

end Polar.Logindex
