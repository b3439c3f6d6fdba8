import Polar.Base.Run
import Polar.Base.Slots

/-!
# Writing and flushing WAL in modes 4 and 5

The write worker runs `XLogWrite`, appends what it has written to the unflushed ring and publishes
`logWriteResult`; the flush worker runs `polar_wal_pipeline_flush`, syncs and closes the files of
the ring and publishes `logFlushResult`. Beside them stand the open files, as the kernel sees them,
and backends that read the two positions with `RefreshXLogWriteResult`. With `openSync`, that is
`wal_sync_method` set to `open_sync` or `open_datasync`, a write is durable when it returns,
`issue_xlog_fsync` does nothing, and a flush request adds no entry to the ring. The setting `fsync`
is on.
-/

namespace Polar.Pipeline.Flush

open Function

/-- `polar_wal_pipeline_unflushed_xlog_t`; there is one timeline. -/
structure Entry where
  fd : Nat
  segNo : Nat
  endLsn : Nat
  needClose : Bool
  deriving DecidableEq, Repr, Inhabited

/-- An open WAL segment: the WAL position written to it and the one synced. -/
structure File where
  segNo : Nat
  written : Nat
  synced : Nat
  deriving DecidableEq, Repr

/-- The files. `misused` records an operation on a descriptor that is not open for the segment
meant, or a close of a file with unsynced writes. -/
structure Files where
  table : Nat → Option File
  opened : Nat → Nat
  closed : Nat → Nat
  misused : Bool
  /-- The end of the WAL that has been synced without a gap. -/
  durable : Nat

namespace Files

/-- `XLogFileInit` or `XLogFileOpen`. -/
def openFile (s : Files) (fd segNo lsn : Nat) : Files :=
  { s with
    table := update s.table fd (some ⟨segNo, lsn, lsn⟩)
    opened := update s.opened segNo (s.opened segNo + 1) }

/-- The segment is durable up to `upTo`: the WAL is, if it was up to the segment. -/
def durableTo (segSize : Nat) (s : Files) (segNo upTo : Nat) : Nat :=
  if segNo * segSize ≤ s.durable then max s.durable upTo else s.durable

/-- The pages up to `upTo` are written to the segment. -/
def write (openSync : Bool) (segSize : Nat) (s : Files) (fd segNo upTo : Nat) : Files :=
  match s.table fd with
  | some f =>
    if f.segNo = segNo then
      if openSync then
        { s with
          table := update s.table fd (some ⟨segNo, upTo, upTo⟩)
          durable := s.durableTo segSize segNo upTo }
      else { s with table := update s.table fd (some { f with written := upTo }) }
    else { s with misused := true }
  | none => { s with misused := true }

/-- `issue_xlog_fsync`. -/
def fsync (openSync : Bool) (segSize : Nat) (s : Files) (fd segNo : Nat) : Files :=
  if openSync then s
  else match s.table fd with
    | some f =>
      if f.segNo = segNo then
        { s with
          table := update s.table fd (some { f with synced := f.written })
          durable := s.durableTo segSize segNo f.written }
      else { s with misused := true }
    | none => { s with misused := true }

/-- `polar_wal_pipeline_xlog_close`. -/
def close (s : Files) (fd segNo : Nat) : Files :=
  match s.table fd with
  | some f =>
    { s with
      table := update s.table fd none
      closed := update s.closed f.segNo (s.closed f.segNo + 1)
      misused := s.misused || f.segNo != segNo || f.synced != f.written }
  | none => { s with misused := true }

end Files

/-- Where the write worker is. -/
inductive Writer where
  | idle
  /-- At the head of the loop of `XLogWrite`. -/
  | loop (rqstWrite rqstFlush : Nat)
  /-- Has written the last page of a segment and is going to append its entry. -/
  | finishSeg (rqstWrite rqstFlush : Nat)
  /-- Has done what it was asked; is going to publish `logWriteResult`. -/
  | publish
  deriving DecidableEq, Repr

/-- Where the flush worker is. `entry` is the current entry, with what has been decided for it. -/
inductive Flusher where
  | idle
  /-- Has found the flush position behind the write position. -/
  | enter
  /-- Going to look at the next slot. -/
  | look
  | sync (entry : Entry) (flush close stop : Bool)
  | publish (entry : Entry) (close stop : Bool)
  | close (entry : Entry) (close stop : Bool)
  | clear (stop : Bool)
  deriving DecidableEq, Repr

/-- The positions, the files and the two workers. -/
structure State (ρ : Type) where
  logWriteResult : Nat
  logFlushResult : Nat
  ring : ρ
  files : Files
  writer : Writer
  /-- `LogwrtResult` of the write worker. -/
  localWrite : Nat
  localFlush : Nat
  /-- `openLogFile` and `openLogSegNo`. -/
  openLog : Option (Nat × Nat)
  flusher : Flusher
  /-- The readers: the flush position read, when the write position is still to be read. -/
  readers : List (Option Nat)
  /-- The pairs of flush and write position that readers have obtained. -/
  seen : List (Nat × Nat)

/-- One step of a worker or of a backend. -/
inductive Op where
  | begin (rqstWrite rqstFlush : Nat)
  /-- Pages are written to the file of the segment; `fd` is the descriptor if it is opened. -/
  | write (upTo fd : Nat)
  /-- `polar_wal_pipeline_unflushed_xlog_append`, from either of its two places. -/
  | append (fd : Nat)
  | publish
  | flush
  | readFlush (i : Nat)
  | readWrite (i : Nat)
  deriving Repr

namespace State

variable {ρ : Type}

/-- Start at `lsn`; the pipeliner's own copy of the flush position is not set yet. -/
def init (ring : ρ) (lsn readers : Nat) : State ρ :=
  { logWriteResult := lsn, logFlushResult := lsn, ring := ring
    files := ⟨fun _ => none, fun _ => 0, fun _ => 0, false, lsn⟩
    writer := .idle, localWrite := lsn, localFlush := 0, openLog := none, flusher := .idle
    readers := List.replicate readers none, seen := [] }

/-- A step of the flush worker. -/
def flushStep (ops : QueueOps ρ Entry) (openSync : Bool) (segSize : Nat) (s : State ρ) :
    Option (State ρ) :=
  match s.flusher with
  | .idle => if s.logFlushResult < s.logWriteResult then some { s with flusher := .enter } else none
  | .enter =>
    match ops.current s.ring with
    | none => some { s with flusher := .idle }
    | some _ => some { s with flusher := .look }
  | .look =>
    match ops.next s.ring with
    | (ring, entry, none) =>
      some { s with ring := ring, flusher := .sync entry true entry.needClose true }
    | (ring, entry, some next) =>
      if entry.fd ≠ next.fd then
        some { s with ring := ring, flusher := .sync entry true true false }
      else if next.needClose then
        some { s with ring := ring, flusher := .sync entry true false false }
      else some { s with ring := ring, flusher := .sync entry false false false }
  | .sync entry flush close stop =>
    if flush then
      some { s with
        files := s.files.fsync openSync segSize entry.fd entry.segNo
        flusher := .publish entry close stop }
    else some { s with flusher := .close entry close stop }
  | .publish entry close stop =>
    some { s with logFlushResult := entry.endLsn, flusher := .close entry close stop }
  | .close entry close stop =>
    if close then
      some { s with files := s.files.close entry.fd entry.segNo, flusher := .clear stop }
    else some { s with flusher := .clear stop }
  | .clear stop =>
    some { s with ring := ops.clear s.ring, flusher := if stop then .idle else .look }

/-- Pages are written. A segment that is not the open one gets the descriptor `fd`. -/
def writeStep (openSync : Bool) (segSize : Nat) (s : State ρ) (upTo fd : Nat) :
    Option (State ρ) :=
  match s.writer with
  | .loop rqstWrite rqstFlush =>
    let segNo := s.localWrite / segSize
    if s.localWrite < upTo ∧ upTo ≤ rqstWrite ∧ upTo ≤ (segNo + 1) * segSize then
      let writer : Writer :=
        if upTo = (segNo + 1) * segSize then .finishSeg rqstWrite rqstFlush
        else .loop rqstWrite rqstFlush
      match s.openLog with
      | some (openFd, openSeg) =>
        if openSeg = segNo then
          some { s with
            files := s.files.write openSync segSize openFd segNo upTo
            localWrite := upTo, writer := writer }
        else if s.files.table fd = none then
          some { s with
            files := (s.files.openFile fd segNo s.localWrite).write openSync segSize fd segNo upTo
            openLog := some (fd, segNo), localWrite := upTo, writer := writer }
        else none
      | none =>
        if s.files.table fd = none then
          some { s with
            files := (s.files.openFile fd segNo s.localWrite).write openSync segSize fd segNo upTo
            openLog := some (fd, segNo), localWrite := upTo, writer := writer }
        else none
    else none
  | _ => none

/-- An entry is appended for the finished segment or for the flush that was asked for; in the
second case there may be no open file yet, and none is needed where writes are durable. -/
def appendStep (ops : QueueOps ρ Entry) (openSync : Bool) (segSize : Nat) (s : State ρ)
    (fd : Nat) : Option (State ρ) :=
  match s.writer with
  | .finishSeg rqstWrite rqstFlush => do
      let (openFd, openSeg) ← s.openLog
      let ring ← ops.append s.ring ⟨openFd, openSeg, s.localWrite, true⟩
      return { s with
        ring := ring, localFlush := s.localWrite, writer := .loop rqstWrite rqstFlush }
  | .loop rqstWrite rqstFlush =>
    if rqstWrite ≤ s.localWrite ∧ s.localFlush < rqstFlush ∧ s.localFlush < s.localWrite then
      if openSync then some { s with localFlush := s.localWrite, writer := .publish }
      else match s.openLog with
        | some (openFd, openSeg) => do
            let ring ← ops.append s.ring ⟨openFd, openSeg, s.localWrite, false⟩
            return { s with ring := ring, localFlush := s.localWrite, writer := .publish }
        | none =>
          if s.files.table fd = none then do
            let segNo := (s.localWrite - 1) / segSize
            let ring ← ops.append s.ring ⟨fd, segNo, s.localWrite, false⟩
            return { s with
              files := s.files.openFile fd segNo s.localWrite, openLog := some (fd, segNo)
              ring := ring, localFlush := s.localWrite, writer := .publish }
          else none
    else none
  | _ => none

/-- A step of the system. -/
def step (ops : QueueOps ρ Entry) (openSync : Bool) (segSize : Nat) (s : State ρ) :
    Op → Option (State ρ)
  | .begin rqstWrite rqstFlush =>
    if s.writer = .idle ∧ (s.localWrite < rqstWrite ∨ s.localFlush < rqstFlush) then
      some { s with writer := .loop rqstWrite rqstFlush }
    else none
  | .write upTo fd => s.writeStep openSync segSize upTo fd
  | .append fd => s.appendStep ops openSync segSize fd
  | .publish =>
    match s.writer with
    | .loop rqstWrite rqstFlush =>
      if rqstWrite ≤ s.localWrite ∧ (rqstFlush ≤ s.localFlush ∨ s.localWrite ≤ s.localFlush)
      then some { s with logWriteResult := s.localWrite, writer := .idle }
      else none
    | .publish => some { s with logWriteResult := s.localWrite, writer := .idle }
    | _ => none
  | .flush => s.flushStep ops openSync segSize
  | .readFlush i =>
    match s.readers[i]? with
    | some none => some { s with readers := s.readers.set i (some s.logFlushResult) }
    | _ => none
  | .readWrite i =>
    match s.readers[i]? with
    | some (some flush) =>
      some { s with
        readers := s.readers.set i none, seen := (flush, s.logWriteResult) :: s.seen }
    | _ => none

end State

/-- The flush worker publishes an end that the write worker has published. -/
def Ordered {ρ : Type} (s : State ρ) : Op → Prop
  | .flush => ∀ entry close stop, s.flusher = .publish entry close stop →
      entry.endLsn ≤ s.logWriteResult
  | _ => True

instance {ρ : Type} (s : State ρ) : (op : Op) → Decidable (Ordered s op)
  | .flush =>
    match h : s.flusher with
    | .publish entry _ _ =>
      decidable_of_iff (entry.endLsn ≤ s.logWriteResult) (by simp [Ordered, h])
    | .idle | .enter | .look | .sync .. | .close .. | .clear _ => .isTrue (by simp [Ordered, h])
  | .begin .. | .write .. | .append _ | .publish | .readFlush _ | .readWrite _ => .isTrue trivial

end Polar.Pipeline.Flush
