import Polar.Base.Run
import Polar.SplitRead.Xid

/-!
# Asynchronous replay of locks

On a replica the startup process hands the `AccessExclusiveLock`s of an `XLOG_STANDBY_LOCK` record
to a worker, which acquires them in order. A record waits for the last lock of its transaction. The
walreceiver reports the position of the worker to the primary.

Every step is one section under the lock of `polar_alr_ctl`, or one access without it.

Xids are full xids. The records and the tables of the code have their low 32 bits: a primary stops
to assign xids before two transactions that run at the same time are half of the range apart, so the
low bits tell the xids of the tables apart and order them (`releaseOldLocks_eq`).
-/

namespace Polar.LockReplay

open SplitRead (Near precedes xidFromFull)

/-- `xl_standby_lock`, with a full xid. -/
structure Lock where
  xid : Nat
  dbOid : Nat
  relOid : Nat
  deriving DecidableEq, Repr

/-- `polar_alr_state`. -/
inductive LockState where
  | idle
  | getting
  | got
  | skip
  deriving DecidableEq, Repr

/-- `state < POLAR_ALR_GOT`. -/
def LockState.pending : LockState → Bool
  | .idle | .getting => true
  | .got | .skip => false

/-- `polar_alr_lock`: the lock and the end of its record. -/
structure Entry where
  lock : Lock
  lsn : Nat
  state : LockState
  deriving DecidableEq, Repr

/-- `polar_alr_xact`. -/
structure Xact where
  xid : Nat
  running : Bool
  locks : List Lock
  lastLock : Lock
  deriving DecidableEq, Repr

/-- What the replay of a record does to locks. -/
inductive Body where
  /-- `XLOG_STANDBY_LOCK`. -/
  | locks (locks : List Lock)
  /-- A record of `RM_XACT_ID`: the xids that it commits or aborts, and
  `XACT_XINFO_HAS_AE_LOCKS`. -/
  | xact (xids : List Nat) (hasAeLocks : Bool)
  /-- `XLOG_RUNNING_XACTS`, with the xids that are prepared then. -/
  | runningXacts (oldestRunningXid : Nat) (prepared : List Nat)
  | other
  deriving DecidableEq, Repr

/-- A WAL record, as far as the locks go. -/
structure Record where
  /-- The end of the record. -/
  stop : Nat
  /-- The full xid of `xl_xid`, or 0. -/
  xid : Nat
  body : Body
  deriving DecidableEq, Repr

/-- The WAL, record by record. LSN 0 is invalid. -/
structure Wal where
  record : Nat → Record
  /-- Where replay begins. -/
  begin : Nat
  begin_pos : 0 < begin
  begin_lt : begin < (record 0).stop
  stop_lt : ∀ i, (record i).stop < (record (i + 1)).stop

/-- Where the startup process is with the current record. -/
inductive Stage where
  | idle
  /-- Before `polar_alr_xact_is_replaying`. -/
  | gate
  /-- In the redo function, at the given lock or xid. -/
  | redo (k : Nat)
  /-- In `StandbyReleaseLockTree`. -/
  | release (k : Nat)
  /-- `replaying WAL on finished xact`. -/
  | panicked
  deriving DecidableEq, Repr

/-- Where the worker is. -/
inductive Worker where
  | idle
  /-- In `LockAcquire`. -/
  | getting (lock : Lock)
  /-- The lock is acquired, and `polar_alr_ctl->lsn` is to be set. -/
  | got (lock : Lock)
  deriving DecidableEq, Repr

/-- The startup process, the tables of locks and the worker. -/
structure State where
  current : Nat
  stage : Stage
  /-- `lastReplayedEndRecPtr`. -/
  lastReplayed : Nat
  /-- `lock_tbl_empty` of the startup process. -/
  lockTblEmpty : Bool
  /-- The xids that `pg_xact` has as committed or aborted. -/
  clog : List Nat
  /-- `polar_alr_ctl->lsn`. -/
  lsn : Nat
  /-- The lock table, in the order of insertion. -/
  lockTbl : List Entry
  xactTbl : List Xact
  /-- `polar_alr_ctl->locks`. -/
  queue : List Lock
  worker : Worker
  /-- The walreceiver has read the apply position. -/
  applyPtr : Option Nat
  /-- The lock positions sent to the primary, the last one first. -/
  reports : List Nat
  deriving DecidableEq, Repr

/-- One step of one process. -/
inductive Op where
  /-- The next step of the startup process. -/
  | startup
  /-- The next step of the worker. -/
  | worker
  /-- The walreceiver reads the apply position. -/
  | readApply
  /-- It reads `polar_alr_ctl->lsn`, and sends the reply. -/
  | reply
  deriving DecidableEq, Repr

namespace State

/-- No record is replayed. -/
def init (wal : Wal) : State :=
  { current := 0, stage := .idle, lastReplayed := wal.begin, lockTblEmpty := true, clog := []
    lsn := 0, lockTbl := [], xactTbl := [], queue := [], worker := .idle, applyPtr := none
    reports := [] }

variable (s : State)

def findLock (l : Lock) : Option Entry := s.lockTbl.find? (·.lock = l)

def findXact (xid : Nat) : Option Xact := s.xactTbl.find? (·.xid = xid)

/-- Set the state of a lock. -/
def setState (l : Lock) (state : LockState) : State :=
  { s with lockTbl := s.lockTbl.map fun e => if e.lock = l then { e with state } else e }

/-- Enter the xact of a lock, which is its last lock then. -/
def enterXact (l : Lock) : List Xact :=
  match s.findXact l.xid with
  | some _ => s.xactTbl.map fun x =>
    if x.xid = l.xid then { x with locks := x.locks ++ [l], lastLock := l } else x
  | none => s.xactTbl ++ [{ xid := l.xid, running := true, locks := [l], lastLock := l }]

/-- `polar_alr_add_async_lock`. -/
def addAsyncLock (l : Lock) (lsn lastLsn : Nat) : State :=
  match s.findLock l with
  | some _ => s
  | none =>
    { s with
      lockTbl := s.lockTbl ++ [{ lock := l, lsn, state := .idle }]
      lockTblEmpty := false
      queue := s.queue ++ [l]
      xactTbl := s.enterXact l
      lsn := if s.lsn = 0 then lastLsn else s.lsn }

/-- Mark the xacts that `p` picks as not running. -/
def markFinished (p : Nat → Bool) : State :=
  { s with xactTbl := s.xactTbl.map fun x => if p x.xid then { x with running := false } else x }

/-- `polar_alr_release_locks` for a valid xid. -/
def releaseLocks (xid : Nat) : State := s.markFinished (· = xid)

/-- `polar_alr_release_old_locks`. -/
def releaseOldLocks (oldxid : Nat) (prepared : List Nat) : State :=
  s.markFinished fun xid => decide (xid ∉ prepared ∧ xid < oldxid)

/-- The code compares the low bits of the xids, by `TransactionIdPrecedes`. -/
theorem releaseOldLocks_eq {oldxid : Nat} {prepared : List Nat}
    (hnear : ∀ x ∈ s.xactTbl, ∀ y ∈ oldxid :: prepared, Near x.xid y) :
    s.releaseOldLocks oldxid prepared = s.markFinished fun xid =>
      decide (xidFromFull xid ∉ prepared.map xidFromFull) &&
        precedes (xidFromFull xid) (xidFromFull oldxid) := by
  have hpick : ∀ x ∈ s.xactTbl, (x.xid ∉ prepared ∧ x.xid < oldxid ↔
      xidFromFull x.xid ∉ prepared.map xidFromFull ∧
        precedes (xidFromFull x.xid) (xidFromFull oldxid) = true) := by
    intro x hx
    have hmem : xidFromFull x.xid ∈ prepared.map xidFromFull ↔ x.xid ∈ prepared := by
      rw [List.mem_map]
      constructor
      · rintro ⟨y, hy, heq⟩
        rwa [(hnear x hx y (List.mem_cons_of_mem _ hy)).xidFromFull_inj.mp heq.symm]
      · exact fun h => ⟨x.xid, h, rfl⟩
    rw [hmem, (hnear x hx oldxid List.mem_cons_self).precedes_iff]
  have htbl : s.xactTbl.map (fun x => if decide (x.xid ∉ prepared ∧ x.xid < oldxid) = true then
        { x with running := false } else x) = s.xactTbl.map (fun x =>
        if (decide (xidFromFull x.xid ∉ prepared.map xidFromFull) &&
          precedes (xidFromFull x.xid) (xidFromFull oldxid)) = true then
        { x with running := false } else x) := by
    apply List.map_congr_left
    intro x hx
    simp only [decide_eq_true_eq, Bool.and_eq_true, hpick x hx]
  rw [releaseOldLocks, markFinished, markFinished, htbl]

/-- What `polar_alr_xact_is_replaying` comes to. -/
inductive Gate where
  | replaying
  | pass (lockTblEmpty : Bool)
  | panic
  deriving DecidableEq, Repr

/-- `polar_alr_xact_is_replaying`. -/
def xactIsReplaying (xid : Nat) : Gate :=
  if s.lockTblEmpty then .pass true
  else if s.xactTbl = [] then .pass true
  else match s.findXact xid with
    | none => .pass false
    | some x =>
      if x.running = false then .panic
      else match s.findLock x.lastLock with
        | some e => if e.state.pending then .replaying else .pass false
        | none => .pass false

/-- The record is replayed. -/
def advance (wal : Wal) : State :=
  { s with
    lastReplayed := (wal.record s.current).stop
    current := s.current + 1, stage := .idle }

/-- The redo function at step `k`. -/
def redoStep (wal : Wal) (k : Nat) : State :=
  let r := wal.record s.current
  match r.body with
  | .locks locks =>
    match locks[k]? with
    | some l => { s.addAsyncLock l r.stop s.lastReplayed with stage := .redo (k + 1) }
    | none => s.advance wal
  | .xact xids hasAeLocks =>
    match xids[k]? with
    | some xid => { s with clog := xid :: s.clog, stage := .redo (k + 1) }
    | none => if hasAeLocks then { s with stage := .release 0 } else s.advance wal
  | .runningXacts oldxid prepared => (s.releaseOldLocks oldxid prepared).advance wal
  | .other => s.advance wal

/-- The next step of the startup process, in `ApplyWalRecord`. -/
def startupStep (wal : Wal) : Option State :=
  let r := wal.record s.current
  match s.stage with
  | .idle =>
    match r.body with
    | .xact _ _ => some { s with stage := .redo 0 }
    | _ => some { s with stage := .gate }
  | .gate =>
    match s.xactIsReplaying r.xid with
    | .replaying => none
    | .pass lockTblEmpty => some { s with lockTblEmpty, stage := .redo 0 }
    | .panic => some { s with stage := .panicked }
  | .redo k => some (s.redoStep wal k)
  | .release k =>
    match r.body with
    | .xact xids _ =>
      match xids[k]? with
      | some xid => some { s.releaseLocks xid with stage := .release (k + 1) }
      | none => some (s.advance wal)
    | _ => none
  | .panicked => none

/-- Release the locks of the finished xacts. -/
def releaseFinished : State :=
  let gone := (s.xactTbl.filter fun x => !x.running).flatMap Xact.locks
  { s with
    lockTbl := s.lockTbl.filter (·.lock ∉ gone)
    queue := s.queue.filter (· ∉ gone)
    xactTbl := s.xactTbl.filter Xact.running }

/-- Take the head of the queue. -/
def popHead : State :=
  match s.queue with
  | [] => { s with lsn := 0 }
  | l :: queue =>
    if l.xid = 0 ∨ l.xid ∈ s.clog then
      { s.setState l .skip with queue, lsn := ((s.findLock l).map Entry.lsn).getD 0 }
    else { s.setState l .getting with queue, worker := .getting l }

/-- `alr_try_to_acquire_lock`, up to the release of the lock. -/
def tryToAcquireLock : State := s.releaseFinished.popHead

/-- The next step of the worker. -/
def workerStep : State :=
  match s.worker with
  | .idle => s.tryToAcquireLock
  | .getting l => { s.setState l .got with worker := .got l }
  | .got l => { s with lsn := ((s.findLock l).map Entry.lsn).getD 0, worker := .idle }

/-- The lock position in `XLogWalRcvSendReply`. -/
def lockPtr (applyPtr : Nat) : Nat :=
  if s.lsn = 0 ∨ s.lsn > applyPtr then applyPtr else s.lsn

def step (wal : Wal) (s : State) : Op → Option State
  | .startup => s.startupStep wal
  | .worker => some s.workerStep
  | .readApply => some { s with applyPtr := some s.lastReplayed }
  | .reply => s.applyPtr.map fun applyPtr =>
    { s with applyPtr := none, reports := s.lockPtr applyPtr :: s.reports }

end State

end Polar.LockReplay
