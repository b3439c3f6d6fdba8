import Polar.Base.Run
import Polar.LockReplay.System
import Mathlib.Data.List.Basic
import Mathlib.Logic.Function.Basic

/-!
# Replay of truncations and drops on a standby

A standby that has replicas of its own replays locks in the startup process. It keeps, for every
xid, the end of the record of its last lock. Before it truncates a relation, or drops the files of a
committed transaction, it waits for its replicas, at the position that it finds in this table.

Every step is the replay of one record. The tables belong to the startup process alone. Xids are
full xids, of which the code compares the low bits, as in the replay by a worker.
-/

namespace Polar.DdlReplay

open LockReplay (Lock)

/-- What a record says. -/
inductive Body where
  /-- `XLOG_STANDBY_LOCK`. -/
  | locks (locks : List Lock)
  /-- A commit: `subxacts`, `XACT_XINFO_HAS_AE_LOCKS` and `nrels`. -/
  | commit (subxacts : List Nat) (hasAeLocks : Bool) (nrels : Nat)
  | abort (subxacts : List Nat) (hasAeLocks : Bool) (nrels : Nat)
  /-- `XLOG_SMGR_TRUNCATE`, with the number of forks that are left to truncate. -/
  | truncate (nforks : Nat)
  /-- `XLOG_RUNNING_XACTS`, with the xids that are prepared then. -/
  | runningXacts (oldestRunningXid : Nat) (prepared : List Nat)
  | other
  deriving DecidableEq, Repr

/-- A WAL record, as far as locks and waits go. -/
structure Record where
  /-- The end of the record. -/
  stop : Nat
  /-- The full xid of `xl_xid`, or 0. -/
  xid : Nat
  body : Body
  deriving DecidableEq, Repr

/-- The WAL from where recovery begins, record by record. LSN 0 is invalid. -/
structure Wal where
  record : Nat → Record
  begin : Nat
  /-- The xids that had ended before. -/
  settled : List Nat
  begin_pos : 0 < begin
  begin_lt : begin < (record 0).stop
  stop_lt : ∀ i, (record i).stop < (record (i + 1)).stop

/-- What `POLAR_WAIT_DDL_IN_RECOVERY` and `polar_wait_ddl_in_recovery` ask about the node. -/
structure Node where
  isStandby : Bool
  inRecovery : Bool
  enableSyncDdl : Bool
  enableSyncDdlLegacy : Bool
  deriving DecidableEq, Repr

/-- What the replay of a record does outside its tables. -/
inductive Action where
  | xlogFlush (lsn : Nat)
  /-- `polar_set_sync_ddl_lsn`. -/
  | setSyncDdlLsn (lsn : Nat)
  | walSndWakeup
  | syncRepWaitForLSN (lsn : Nat)
  /-- `smgrtruncate2`. -/
  | truncate
  | dropRelationFiles
  deriving DecidableEq, Repr

/-- The tables of the startup process. -/
structure State where
  /-- The number of records that are replayed. -/
  next : Nat
  /-- `lastReplayedEndRecPtr`. -/
  lastReplayedEnd : Nat
  hotStandbyActive : Bool
  committed : List Nat
  aborted : List Nat
  /-- `RecoveryLockHash`. -/
  lockHash : List Lock
  /-- `polar_latest_end_lsn` of the entries of `RecoveryLockXidHash`. -/
  xidHash : Nat → Option Nat
  /-- The actions of the last record, in order. -/
  actions : List Action

/-- The replay of a record, or the activation of hot standby. -/
inductive Op where
  | replay
  /-- Hot standby becomes active. -/
  | activate
  deriving DecidableEq, Repr

namespace State

/-- No record is replayed. -/
def init (wal : Wal) : State :=
  { next := 0, lastReplayedEnd := wal.begin, hotStandbyActive := false, committed := wal.settled
    aborted := [], lockHash := [], xidHash := fun _ => none, actions := [] }

variable (s : State)

/-- `TransactionIdDidCommit(xid) || TransactionIdDidAbort(xid)`. -/
def didEnd (xid : Nat) : Bool := s.committed.contains xid || s.aborted.contains xid

/-- `StandbyAcquireAccessExclusiveLock`. `replayEnd` is `GetCurrentReplayRecPtr`. -/
def acquire (lock : Lock) (lsn replayEnd : Nat) : State :=
  if lock.xid = 0 ∨ s.didEnd lock.xid then s
  else
    let entered := Function.update s.xidHash lock.xid (some ((s.xidHash lock.xid).getD 0))
    if lock ∈ s.lockHash then { s with xidHash := entered }
    else
      { s with
        lockHash := lock :: s.lockHash
        xidHash := Function.update entered lock.xid (some (if lsn = 0 then replayEnd else lsn)) }

/-- The loop over the locks of an `XLOG_STANDBY_LOCK` record. -/
def acquireAll (locks : List Lock) (stop : Nat) : State :=
  locks.foldl (fun s lock => s.acquire lock stop stop) s

/-- `StandbyReleaseXidEntryLocks` and the removal of the entry, for the xids of `out`. -/
def release (out : Nat → Bool) : State :=
  { s with
    lockHash := s.lockHash.filter fun l => !((s.xidHash l.xid).isSome && out l.xid)
    xidHash := fun xid => if out xid then none else s.xidHash xid }

/-- `StandbyReleaseLocks`. -/
def releaseLocks (xid : Nat) : State :=
  if xid ≠ 0 then s.release (· == xid) else s.release fun _ => true

/-- `StandbyReleaseLockTree`. -/
def releaseLockTree (xid : Nat) (subxids : List Nat) : State :=
  subxids.foldl releaseLocks (s.releaseLocks xid)

/-- `StandbyReleaseOldLocks`. -/
def releaseOldLocks (oldxid : Nat) (prepared : List Nat) : State :=
  s.release fun xid => !prepared.contains xid && decide (xid < oldxid)

/-- `polar_latest_end_lsn`. -/
def latestEndLsn (xid : Nat) : Nat :=
  if xid ≠ 0 then (s.xidHash xid).getD 0 else 0

/-- `polar_calc_latest_end_lsn`. -/
def calcLatestEndLsn (xid : Nat) (subxids : List Nat) : Nat :=
  subxids.foldl (fun lsn sub => max lsn (s.latestEndLsn sub)) (s.latestEndLsn xid)

variable (node : Node)

/-- `polar_wait_ddl_in_recovery`. -/
def waitDdlInRecovery (s : State) (lsn : Nat) : List Action :=
  if !node.inRecovery || (!node.enableSyncDdl && !node.enableSyncDdlLegacy) then []
  else
    let waitLsn := if lsn = 0 then s.lastReplayedEnd else lsn
    -- the position that was computed is published, and the argument is waited for
    [.setSyncDdlLsn waitLsn, .walSndWakeup, .syncRepWaitForLSN lsn]

/-- `POLAR_WAIT_DDL_IN_RECOVERY`. -/
def waitsDdl (s : State) : Bool := node.isStandby && s.hotStandbyActive

/-- `xact_redo_commit`. -/
def xactRedoCommit (s : State) (r : Record) (subxacts : List Nat) (hasAeLocks : Bool)
    (nrels : Nat) : State :=
  let shouldWait := decide (0 < nrels) && waitsDdl node s
  let latest := if shouldWait then s.calcLatestEndLsn r.xid subxacts else 0
  let marked := { s with committed := r.xid :: subxacts ++ s.committed }
  let released := if hasAeLocks then marked.releaseLockTree r.xid subxacts else marked
  { released with
    actions := if 0 < nrels then
        .xlogFlush r.stop :: (if shouldWait then s.waitDdlInRecovery node latest else []) ++
          [.dropRelationFiles]
      else [] }

/-- `xact_redo_abort`. -/
def xactRedoAbort (r : Record) (subxacts : List Nat) (hasAeLocks : Bool)
    (nrels : Nat) : State :=
  let marked := { s with aborted := r.xid :: subxacts ++ s.aborted }
  let released := if hasAeLocks then marked.releaseLockTree r.xid subxacts else marked
  { released with
    actions := if 0 < nrels then [.xlogFlush r.stop, .dropRelationFiles] else [] }

/-- `smgr_redo` of `XLOG_SMGR_TRUNCATE`. -/
def smgrRedoTruncate (s : State) (r : Record) (nforks : Nat) : State :=
  { s with
    actions := .xlogFlush r.stop ::
      if 0 < nforks then
        (if waitsDdl node s then s.waitDdlInRecovery node (s.calcLatestEndLsn r.xid []) else []) ++
          [.truncate]
      else [] }

/-- The redo function of a record. -/
def redo (s : State) (r : Record) : State :=
  match r.body with
  | .locks locks => { s.acquireAll locks r.stop with actions := [] }
  | .commit subxacts hasAeLocks nrels => s.xactRedoCommit node r subxacts hasAeLocks nrels
  | .abort subxacts hasAeLocks nrels => s.xactRedoAbort r subxacts hasAeLocks nrels
  | .truncate nforks => s.smgrRedoTruncate node r nforks
  | .runningXacts oldest prepared => { s.releaseOldLocks oldest prepared with actions := [] }
  | .other => { s with actions := [] }

/-- The replay of the next record. -/
def replay (wal : Wal) (node : Node) (s : State) : State :=
  { s.redo node (wal.record s.next) with
    next := s.next + 1
    lastReplayedEnd := (wal.record s.next).stop }

end State

def step (wal : Wal) (node : Node) (s : State) : Op → Option State
  | .replay => some (s.replay wal node)
  | .activate => some { s with hotStandbyActive := true }

/-! ## What is asked of the wait -/

/-- The locks that a record reports. -/
def Record.lockList (r : Record) : List Lock :=
  match r.body with
  | .locks locks => locks
  | _ => []

/-- The record commits or aborts the xid. -/
def Record.Ends (r : Record) (xid : Nat) : Prop :=
  match r.body with
  | .commit subxacts _ _ | .abort subxacts _ _ => xid = r.xid ∨ xid ∈ subxacts
  | _ => False

/-- The record truncates a relation, or commits with files to drop. -/
def Record.Destroys (r : Record) : Prop :=
  match r.body with
  | .commit _ _ nrels => 0 < nrels
  | .truncate nforks => 0 < nforks
  | _ => False

/-- The xids whose entries are looked up for a record. -/
def Record.lookups (r : Record) : List Nat :=
  match r.body with
  | .commit subxacts _ _ => r.xid :: subxacts
  | .truncate _ => [r.xid]
  | _ => []

namespace Wal

variable (wal : Wal)

/-- The xid has ended before record `i`. -/
def Ended (i xid : Nat) : Prop := xid ∈ wal.settled ∨ ∃ k < i, (wal.record k).Ends xid

/-- Record `j` reports a lock of the xid. -/
def Reports (j xid : Nat) : Prop := ∃ l ∈ (wal.record j).lockList, l.xid = xid

/-- Record `j` reports a lock of the xid that no record before it reports. -/
def FirstReport (j xid : Nat) : Prop :=
  ∃ l ∈ (wal.record j).lockList, l.xid = xid ∧ ∀ k < j, l ∉ (wal.record k).lockList

/-- What the primary writes: the xids that end are valid; a transaction that truncates or commits is
running; a commit lists running members of its tree; `oldestRunningXid` is not above a running
transaction. -/
structure WellFormed (top : Nat → Nat) : Prop where
  valid : ∀ i, ¬(wal.record i).Ends 0
  lookup : ∀ i, (wal.record i).Destroys → ∀ xid ∈ (wal.record i).lookups,
    top xid = top (wal.record i).xid ∧ xid ≠ 0 ∧ ¬wal.Ended i xid
  oldest : ∀ i oldest prepared, (wal.record i).body = .runningXacts oldest prepared →
    ∀ j < i, ∀ xid, wal.Reports j xid → ¬wal.Ended i xid → oldest ≤ xid

end Wal

end Polar.DdlReplay
