import Polar.Base.Run
import Mathlib.Logic.Function.Basic

/-!
# Replay of pages on a replica

The startup process parses the records in LSN order: it saves them in the logindex and marks the
buffered pages they touch as outdated. The pages are replayed by whoever reads them from storage or
locks them, and by a background worker.

A record with more than one block is parsed in a mini transaction, with a lock for each of its pages
that a replay takes to find the record. A record with one block is published while it is parsed, and
leaves a watermark in a buffered page.

One process at a time works on a page: it reads it under the I/O lock or replays it under the
content lock in exclusive mode. What it has come to is the work on the page. A step is one access to
shared state, or several that a lock, a compare-and-swap on the redo state or a seqlock makes look
like one; the two replay pointers are written one after the other, since they are read without the
seqlock. The application of the records to a page and the read from storage are one step each.
-/

namespace Polar.Replay

/-- A WAL record: a block is the page and whether its parse takes a cleanup lock. -/
structure Record where
  start : Nat
  stop : Nat
  /-- `XLogRecMaxBlockId(record) > 0`: the record is parsed in a mini transaction. -/
  multi : Bool
  blocks : List (Nat × Bool)
  deriving Repr

/-- The pages of the blocks. -/
def Record.pages (r : Record) : List Nat := r.blocks.map Prod.fst

/-- The WAL, record by record. LSN 0 is invalid. -/
structure Wal where
  record : Nat → Record
  start_pos : 0 < (record 0).start
  start_lt_stop : ∀ i, (record i).start < (record i).stop
  stop_le_start : ∀ i, (record i).stop ≤ (record (i + 1)).start

/-- Where the process that works on a page is. `start` is the local `start_lsn`. -/
inductive Work where
  /-- Nobody has the I/O lock or the content lock. -/
  | none
  /-- The I/O lock is held, and the page is not read yet. -/
  | reading
  /-- The page is read and is to be replayed from `start`. -/
  | read (start : Nat)
  /-- The publication has been probed. -/
  | probed (start arm : Nat)
  /-- A backend has the content lock. -/
  | content
  /-- The startup process has the cleanup lock. -/
  | startup
  /-- In `polar_logindex_lock_apply_page_from`, at the top of the loop. -/
  | enter (start : Nat)
  /-- Waiting for the page lock of the mini transaction, with a reference to it. -/
  | waiting (start : Nat)
  | locked (start : Nat)
  /-- The upper bound has been sampled, and the page lock is still held. -/
  | lockedEnd (start stop : Nat)
  /-- The page is in no mini transaction. -/
  | noLock (start : Nat)
  | sampled (start stop : Nat)
  /-- The records are applied, up to `start`. -/
  | applied (start : Nat)
  /-- The loop is done. -/
  | finished
  deriving DecidableEq, Repr

namespace Work

/-- The process has a reference to the page lock. -/
def refs : Work → Bool
  | .waiting _ | .locked _ | .lockedEnd _ _ => true
  | _ => false

/-- The process has the page lock. -/
def holds : Work → Bool
  | .locked _ | .lockedEnd _ _ => true
  | _ => false

end Work

/-- A buffered page. -/
structure Desc where
  /-- `BM_VALID`. -/
  valid : Bool
  /-- `POLAR_REDO_READ_IO_END`. -/
  readEnd : Bool
  /-- `POLAR_REDO_REPLAYING`. -/
  replaying : Bool
  /-- `POLAR_REDO_OUTDATE`. -/
  outdate : Bool
  /-- `polar_outdate_lsn`. -/
  outdateLsn : Nat
  /-- The page LSN. -/
  lsn : Nat
  /-- The records that the page has. -/
  applied : List Nat
  work : Work
  deriving DecidableEq, Repr

/-- A page that `BufferAlloc` has just inserted into the buffer table. -/
def Desc.init : Desc :=
  { valid := false, readEnd := false, replaying := false, outdate := false, outdateLsn := 0
    lsn := 0, applied := [], work := .none }

/-- Where the startup process is with the current record; `k` is the block it is at. -/
inductive Stage where
  | idle
  | saving (k : Nat)
  | block (k : Nat)
  /-- The page lock is held, for a mini transaction. -/
  | locked (k : Nat)
  /-- The page is in the buffer pool, and is pinned. -/
  | found (k : Nat)
  /-- The cleanup lock is needed, and the page lock has been released. -/
  | cleanup (k : Nat)
  | cleanupLocked (k : Nat)
  /-- The block is done, and the page lock is still held. -/
  | marked (k : Nat)
  /-- The blocks are done, and `lastReplayedReadRecPtr` has been advanced. -/
  | published
  /-- `lastReplayedEndRecPtr` has been advanced. -/
  | advanced
  /-- The mini transaction is ending. -/
  | ending
  deriving DecidableEq, Repr

/-- Where the background worker is with the current block. -/
inductive WorkerStage where
  | next
  /-- The buffer is pinned, and `BM_VALID` was as given. -/
  | pinned (valid : Bool)
  /-- Before `polar_buffer_need_replay`. -/
  | check
  /-- The record is to be applied. -/
  | need
  deriving DecidableEq, Repr

/-- What the startup process shares with the others. -/
structure Shared where
  current : Nat
  stage : Stage
  /-- `replayEndRecPtr`. -/
  replayEnd : Nat
  /-- `lastReplayedReadRecPtr`. -/
  lastReplayedRead : Nat
  /-- `lastReplayedEndRecPtr`. -/
  lastReplayed : Nat
  /-- The tags of the record in flight, and its end. -/
  inFlight : Option (List Nat × Nat)
  /-- A mini transaction is started. -/
  started : Bool
  /-- The pages of the mini transaction. -/
  table : List Nat
  /-- Those of them whose record is added. -/
  added : List Nat
  /-- The records that the logindex has for a page. -/
  logged : Nat → List Nat
  /-- `bg_replayed_lsn`. -/
  bgReplayed : Nat

/-- Shared memory, the buffered pages and the background worker. -/
structure State where
  shared : Shared
  pages : Nat → Option Desc
  /-- The record and the block of the background worker. -/
  workerRecord : Nat
  workerBlock : Nat
  worker : WorkerStage

/-- One step of one process. -/
inductive Op where
  /-- The next step of the startup process. -/
  | startup
  /-- `BufferAlloc` for a page. -/
  | insert (p : Nat)
  /-- `StartBufferIO`: a process gets the I/O lock of a page that is not valid. -/
  | startRead (p : Nat)
  /-- The page is read from storage, where it has the records before record `m`, and is to be
  replayed from `start`. -/
  | read (p start m : Nat)
  /-- A backend gets the content lock in exclusive mode. -/
  | lock (p : Nat)
  /-- The next step of the work on the page. -/
  | next (p : Nat)
  | evict (p : Nat)
  /-- The next step of the background worker. -/
  | worker
  /-- The background worker evicts the page instead of replaying it. -/
  | workerEvict
  deriving DecidableEq, Repr

variable (wal : Wal)

/-- The page of a block of a record. -/
def Wal.pageAt (i k : Nat) : Option Nat := ((wal.record i).blocks[k]?).map Prod.fst

namespace Shared

variable (sh : Shared)

/-- The startup process holds the page lock of `p`. -/
def holds (p : Nat) : Bool :=
  (wal.record sh.current).multi &&
    match sh.stage with
    | .locked k | .found k | .marked k => wal.pageAt sh.current k == some p
    | _ => false

/-- The startup process has pinned page `p`. -/
def pins (p : Nat) : Bool :=
  match sh.stage with
  | .found k | .cleanup k | .cleanupLocked k => wal.pageAt sh.current k == some p
  | _ => false

/-- `polar_in_flight_page_lsn`, with 0 if there is none. -/
def inFlightLsn (p : Nat) : Nat :=
  match sh.inFlight with
  | some (tags, lsn) => if p ∈ tags then lsn else 0
  | none => 0

/-- The page is added to the mini transaction, if there is one. -/
def setAdded (p : Nat) : Shared :=
  if (wal.record sh.current).multi then { sh with added := p :: sh.added } else sh

/-- The next record. -/
def nextRecord : Shared :=
  { sh with current := sh.current + 1, stage := .idle }

end Shared

namespace Desc

variable (d : Desc)

/-- The first update of the redo state in `polar_logindex_lock_apply_page_from`, with
`polar_arm_in_flight_watermark`. -/
def begin (start arm : Nat) : Desc :=
  { d with
    readEnd := true
    replaying := true
    outdate := false
    outdateLsn := if arm ≤ d.outdateLsn then d.outdateLsn else arm
    work := .enter start }

/-- Apply record `i` to the page. -/
def applyRecord (i : Nat) : Desc :=
  { d with applied := i :: d.applied, lsn := (wal.record i).stop }

/-- `polar_logindex_apply_page` for the records that the logindex has. -/
def applyPage (logged : List Nat) (start stop : Nat) : Desc :=
  let start := max start d.lsn
  if stop ≤ start then { d with work := .applied start }
  else
    let records := logged.filter fun i =>
      start ≤ (wal.record i).start ∧ (wal.record i).start < stop
    { records.foldl (applyRecord wal) d with work := .applied stop }

/-- The update of the redo state at the end of the loop, after a replay up to `start`. -/
def check (start : Nat) : Desc :=
  if d.outdate then { d with outdate := false, work := .enter start }
  else if start < d.outdateLsn then
    { d with outdate := true, replaying := false, work := .finished }
  else { d with replaying := false, work := .finished }

/-- The startup process marks the page as outdated by record `r`. -/
def mark (r : Record) : Desc :=
  { d with outdate := true, outdateLsn := if r.multi then d.outdateLsn else r.stop }

/-- The next step of the work on page `p`: `polar_logindex_lock_apply_buffer` for a locked page, and
the loop of `polar_logindex_lock_apply_page_from` with `polar_logindex_mini_trans_cond_lock`. -/
def next (sh : Shared) (p : Nat) (d : Desc) : Option Desc :=
  match d.work with
  | .none | .reading | .startup => Option.none
  | .read start => some { d with work := .probed start (sh.inFlightLsn p) }
  | .probed start arm => some (d.begin start arm)
  | .content =>
    if d.outdate then some (d.begin sh.bgReplayed 0) else some { d with work := .none }
  | .enter start =>
    if sh.started = true ∧ p ∈ sh.table then some { d with work := .waiting start }
    else some { d with work := .noLock start }
  | .waiting start =>
    if sh.holds wal p then Option.none else some { d with work := .locked start }
  | .locked start =>
    some { d with
      work := .lockedEnd start (if p ∈ sh.added then sh.replayEnd else sh.lastReplayed) }
  | .lockedEnd start stop => some { d with work := .sampled start stop }
  | .noLock start => some { d with work := .sampled start sh.lastReplayed }
  | .sampled start stop => some (d.applyPage wal (sh.logged p) start stop)
  | .applied start => some (d.check start)
  | .finished => some { d with valid := true, work := .none }

end Desc

namespace State

/-- No record is parsed, and no page buffered. -/
def init (lastReplayed bgReplayed : Nat) : State :=
  { shared :=
      { current := 0, stage := .idle, replayEnd := lastReplayed, lastReplayedRead := 0
        lastReplayed, inFlight := none, started := false, table := [], added := []
        logged := fun _ => [], bgReplayed }
    pages := fun _ => none
    workerRecord := 0, workerBlock := 0, worker := .next }

variable (s : State)

def setPage (p : Nat) (d : Desc) : State :=
  { s with pages := Function.update s.pages p (some d) }

def setShared (shared : Shared) : State := { s with shared }

/-- A process other than the startup process has the page lock of `p`. -/
def pageLocked (p : Nat) : Bool :=
  match s.pages p with
  | some d => d.work.holds
  | none => false

/-- A process has a reference to the page lock of `p`. -/
def pageRefs (p : Nat) : Bool :=
  match s.pages p with
  | some d => d.work.refs
  | none => false

/-- Block `k` of the record, with page `p`, in `polar_logindex_outdate_parse`. -/
def markBlock (k p : Nat) (d : Desc) : State :=
  let r := wal.record s.shared.current
  (s.setShared { s.shared.setAdded wal p with stage := .marked k }).setPage p (d.mark r)

/-- A step of the startup process at block `k`, which is page `p`; the page lock of a mini
transaction is taken in `polar_logindex_mini_trans_lock`. -/
def blockStep (k p : Nat) (cleanup : Bool) : Stage → Option State
  | .block _ =>
    if (wal.record s.shared.current).multi then
      if s.pageLocked p then none
      else some (s.setShared
        { s.shared with table := p :: s.shared.table, stage := .locked k })
    else some (s.setShared { s.shared with stage := .locked k })
  | .locked _ =>
    match s.pages p with
    | none => some (s.setShared { s.shared.setAdded wal p with stage := .marked k })
    | some _ => some (s.setShared { s.shared with stage := .found k })
  | .found _ =>
    (s.pages p).map fun d =>
      if d.readEnd = false ∨ cleanup = false ∨ (d.replaying = true ∧ d.valid = false) then
        s.markBlock wal k p d
      else s.setShared { s.shared with stage := .cleanup k }
  | .cleanup _ =>
    (s.pages p).bind fun d =>
      if d.valid = true ∧ d.work = .none then
        some ((s.setShared { s.shared with stage := .cleanupLocked k }).setPage p
          { d with work := .startup })
      else none
  | .cleanupLocked _ =>
    (s.pages p).map fun d => s.markBlock wal k p { d with work := .none }
  | .marked _ => some (s.setShared { s.shared with stage := .block (k + 1) })
  | _ => none

/-- The next step of the startup process, in `ApplyWalRecord`. At the end of a mini transaction
`polar_logindex_mini_trans_end` waits for the references to its page locks. -/
def startupStep : Option State :=
  let sh := s.shared
  let r := wal.record sh.current
  match sh.stage with
  | .idle => some (s.setShared { sh with replayEnd := r.stop, stage := .saving 0 })
  | .saving k =>
    match r.blocks[k]? with
    | some (p, _) =>
      some (s.setShared
        { sh with
          logged := Function.update sh.logged p (sh.logged p ++ [sh.current])
          stage := .saving (k + 1) })
    | none =>
      if r.multi then some (s.setShared { sh with started := true, stage := .block 0 })
      else some (s.setShared { sh with inFlight := some (r.pages, r.stop), stage := .block 0 })
  | .block k =>
    match r.blocks[k]? with
    | some (p, cleanup) => s.blockStep wal k p cleanup (.block k)
    | none => some (s.setShared { sh with lastReplayedRead := r.start, stage := .published })
  | .published => some (s.setShared { sh with lastReplayed := r.stop, stage := .advanced })
  | .advanced =>
    if r.multi then some (s.setShared { sh with started := false, stage := .ending })
    else some (s.setShared { sh with inFlight := none }.nextRecord)
  | .ending =>
    if ∀ p ∈ sh.table, s.pageRefs p = false then
      some (s.setShared { sh with table := [], added := [] }.nextRecord)
    else none
  | .locked k | .found k | .cleanup k | .cleanupLocked k | .marked k =>
    (r.blocks[k]?).bind fun (p, cleanup) => s.blockStep wal k p cleanup sh.stage

/-- The worker goes on to the next block. -/
def nextBlock : State :=
  { s with workerBlock := s.workerBlock + 1, worker := .next }

/-- The worker has pinned page `p`. -/
def workerPins (p : Nat) : Bool :=
  s.worker != .next && wal.pageAt s.workerRecord s.workerBlock == some p

/-- A step of the worker with page `p` of record `r`, in `polar_only_replay_exists_buffer`:
`polar_pin_buffer_for_replay` in two steps, `polar_buffer_need_replay`, and
`polar_bg_redo_apply_read_record` under the content lock. -/
def workerPage (p : Nat) : Option State :=
  let r := wal.record s.workerRecord
  match s.worker with
  | .next =>
    match s.pages p with
    | none => some s.nextBlock
    | some d => some { s with worker := .pinned d.valid }
  | .pinned valid =>
    (s.pages p).map fun d =>
      if valid = true ∨ (d.readEnd = true ∧ d.outdate = true ∧ d.replaying = false) then
        { s with worker := .check }
      else s.nextBlock
  | .check =>
    (s.pages p).map fun d =>
      if d.replaying = true ∨ d.lsn > r.start then s.nextBlock else { s with worker := .need }
  | .need =>
    (s.pages p).bind fun d =>
      if d.work = .none ∨ d.work = .finished then
        some (s.setPage p
          (if d.lsn ≤ r.start then d.applyRecord wal s.workerRecord else d)).nextBlock
      else none

/-- The next step of the worker, in `polar_logindex_apply_xlog_background`. A record without blocks
is not in the logindex, and does not move `bg_replayed_lsn`. -/
def workerStep : Option State :=
  let r := wal.record s.workerRecord
  if r.start ≤ s.shared.lastReplayedRead then
    match wal.pageAt s.workerRecord s.workerBlock with
    | some p => s.workerPage wal p
    | none =>
      let bgReplayed := if r.blocks = [] then s.shared.bgReplayed
        else max s.shared.bgReplayed r.start
      some { s with
        shared := { s.shared with bgReplayed }
        workerRecord := s.workerRecord + 1, workerBlock := 0, worker := .next }
  else none

def step : Op → Option State
  | .startup => s.startupStep wal
  | .insert p =>
    match s.pages p with
    | none => some (s.setPage p .init)
    | some _ => none
  | .startRead p =>
    (s.pages p).bind fun d =>
      if d.valid = false ∧ d.work = .none then some (s.setPage p { d with work := .reading })
      else none
  | .read p start m =>
    (s.pages p).bind fun d =>
      if d.work = .reading ∧ start ≤ (wal.record m).start then
        some (s.setPage p
          { ((List.range m).filter fun i => p ∈ (wal.record i).pages).foldl
              (Desc.applyRecord wal) { d with lsn := 0, applied := [] } with
            work := .read start })
      else none
  | .lock p =>
    (s.pages p).bind fun d =>
      if d.valid = true ∧ d.work = .none then some (s.setPage p { d with work := .content })
      else none
  | .next p => (s.pages p).bind fun d => (d.next wal s.shared p).map (s.setPage p)
  | .evict p =>
    (s.pages p).bind fun d =>
      if d.work = .none ∧ s.shared.pins wal p = false ∧ s.workerPins wal p = false then
        some { s with pages := Function.update s.pages p none }
      else none
  | .worker => s.workerStep wal
  | .workerEvict =>
    (wal.pageAt s.workerRecord s.workerBlock).bind fun p =>
      (s.pages p).bind fun d =>
        if s.worker = .need ∧ d.work = .none ∧ s.shared.pins wal p = false then
          some { s with pages := Function.update s.pages p none }.nextBlock
        else none

end State

end Polar.Replay
