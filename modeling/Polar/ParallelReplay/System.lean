import Polar.Base.Run
import Mathlib.Data.List.Basic

/-!
# The frontier of parallel replay

In parallel replay the startup process publishes the pages of each record in the logindex. The
dispatcher hands them, one task a page, to replay workers, and backends replay the pages that they
read. `bg_replayed_lsn` is the LSN from which a backend has to replay a page, `oldest_replayed_lsn`
the LSN from which some process may still read the WAL.

Every step is one section under `info_lck` or under the lock of the scheduler, or one access without
them.
-/

namespace Polar.ParallelReplay

/-- The WAL with its logindex. The entries of the logindex, one for each page of a record, are
numbered in the order in which they are published. -/
structure Wal where
  /-- Where replay begins. -/
  begin : Nat
  begin_pos : 0 < begin
  /-- `lastReplayedReadRecPtr` when replay begins. -/
  readPtr : Nat
  start : Nat → Nat
  stop : Nat → Nat
  begin_le : begin ≤ start 0
  start_lt : ∀ i, start i < stop i
  stop_le : ∀ i, stop i ≤ start (i + 1)
  /-- The record of an entry. -/
  record : Nat → Nat
  /-- The number of entries of the records before the given one. -/
  first : Nat → Nat
  lt_first_iff : ∀ i n, n < first i ↔ record n < i

namespace Wal

/-- The LSN of an entry is the start of its record. -/
def lsn (wal : Wal) (n : Nat) : Nat := wal.start (wal.record n)

/-- The end of the records before the given one. -/
def before (wal : Wal) : Nat → Nat
  | 0 => wal.begin
  | i + 1 => wal.stop i

end Wal

/-- Where a worker is in `handle_replay_buffer`. -/
inductive Phase where
  | running
  /-- The page is replayed. -/
  | replayed
  /-- `parallel_replay_task_finished` has compared the LSN of the task with that of the head of the
  running queue. -/
  | looked (matched : Bool)
  /-- `POLAR_TASK_NODE_FINISHED`. -/
  | finished
  deriving DecidableEq, Repr

/-- A page that a worker has to replay. -/
structure Task where
  entry : Nat
  phase : Phase
  deriving DecidableEq, Repr

/-- A read of consecutive blocks that are replayed after they are read. -/
structure Replay where
  /-- `polar_replay_from`. -/
  replayFrom : Nat
  /-- `polar_replay_redo_lsn`. -/
  redoLsn : Nat
  /-- The blocks that are still to be replayed. -/
  blocks : Nat
  deriving DecidableEq, Repr

/-- A backend and the page that it replays. -/
structure Backend where
  /-- `polar_read_min_lsn`, 0 when it is invalid. -/
  readMin : Nat
  replay : Option Replay
  deriving DecidableEq, Repr

/-- Where the dispatcher is in `polar_logindex_bg_dispatch`. -/
inductive Pc where
  | idle
  /-- In `polar_sched_remove_finished_task`. -/
  | remove
  /-- At the head of the loop. -/
  | sample (count : Nat)
  /-- Before `polar_logindex_lsn_iterator_next`. -/
  | iter (count : Nat)
  /-- Before the read of `polar_get_last_replayed_read_ptr`. -/
  | check (count : Nat)
  /-- In `polar_sched_add_task`. -/
  | add (count : Nat)
  /-- After the loop, with `dispatch_done`. -/
  | tail (done : Bool)
  /-- Before `polar_advance_bg_replayed_lsn`. -/
  | advance
  /-- Before `polar_get_bg_replayed_lsn`. -/
  | readBg
  /-- In `polar_get_backend_min_replay_lsn`, at a backend, with its result so far. -/
  | scan (bg i result : Nat)
  /-- Before `polar_advance_oldest_replayed_lsn`. -/
  | write (bg result : Nat)
  /-- The assertion of `polar_advance_oldest_replayed_lsn` has failed. -/
  | panicked
  deriving DecidableEq, Repr

/-- The startup process, the dispatcher, the tasks and the backends. -/
structure State where
  /-- The record that the startup process is at. -/
  current : Nat
  /-- It has set `lastReplayedReadRecPtr` to the start of that record. -/
  half : Bool
  /-- The number of entries in the logindex. -/
  logged : Nat
  /-- `lastReplayedReadRecPtr`. -/
  lastRead : Nat
  /-- `lastReplayedEndRecPtr`. -/
  lastEnd : Nat
  pc : Pc
  /-- The position of `lsn_iter`. -/
  iter : Nat
  /-- `replay_page`. -/
  replayPage : Option Nat
  /-- `xlog_replayed_lsn`. -/
  xlogReplayed : Nat
  /-- `max_dispatched_lsn`. -/
  maxDispatched : Nat
  /-- The running queue. -/
  running : List Task
  /-- The entries whose page has been replayed. -/
  replayed : List Nat
  /-- `bg_replayed_lsn`. -/
  bgReplayed : Nat
  /-- `oldest_replayed_lsn`. -/
  oldest : Nat
  /-- `GetRedoRecPtr`. -/
  redo : Nat
  backends : List Backend
  deriving DecidableEq, Repr

/-- One step of one process. -/
inductive Op where
  /-- The next step of the startup process. -/
  | startup
  /-- The next step of the dispatcher. -/
  | dispatch
  /-- The dispatcher removes a finished task from the running queue. -/
  | remove (k : Nat)
  /-- No worker has room for the task of `polar_sched_add_task`. -/
  | full
  /-- The next step of the worker of a task. -/
  | task (k : Nat)
  /-- A backend begins to read some blocks. -/
  | announce (b blocks : Nat)
  /-- The next block of a backend is invalid on disk. -/
  | invalidPage (b : Nat)
  /-- A backend has replayed its next block. -/
  | block (b : Nat)
  /-- `polar_logindex_redo_abort`. -/
  | abort (b : Nat)
  /-- A checkpoint moves the redo pointer. -/
  | checkpoint (lsn : Nat)
  deriving DecidableEq, Repr

namespace State

/-- The state after `polar_logindex_wakeup_bg_replay`. -/
def init (wal : Wal) (redo numBackends : Nat) : State :=
  { current := 0, half := false, logged := 0, lastRead := wal.readPtr, lastEnd := wal.begin
    pc := .idle, iter := 0, replayPage := none, xlogReplayed := 0, maxDispatched := 0
    running := [], replayed := [], bgReplayed := wal.begin, oldest := wal.begin, redo
    backends := List.replicate numBackends ⟨0, none⟩ }

end State

variable (wal : Wal)

/-- The startup process publishes the entries of its record, and then the record. -/
def startupStep (s : State) : State :=
  if s.half then
    { s with lastEnd := wal.stop s.current, current := s.current + 1, half := false }
  else if s.logged < wal.first (s.current + 1) then
    { s with logged := s.logged + 1 }
  else
    { s with lastRead := wal.start s.current, half := true }

/-- One round of `polar_get_backend_min_replay_lsn`. -/
def minReplayLsn (result readMin : Nat) : Nat :=
  if result = 0 ∨ (readMin ≠ 0 ∧ readMin < result) then readMin else result

/-- The LSN that the dispatcher gives to `polar_advance_oldest_replayed_lsn`. -/
def oldestReplayed (bg backendMin : Nat) : Nat :=
  if backendMin ≠ 0 ∧ backendMin < bg then backendMin else bg

/-- The loop of the dispatcher. -/
def dispatchLoop (batch : Nat) (s : State) : Option State :=
  match s.pc with
  | .sample count =>
    -- The loop ends with `replayed_count == replay_batch_size`.
    if count < batch then some { s with xlogReplayed := s.lastEnd, pc := .iter count }
    else some { s with pc := .tail false }
  | .iter count =>
    match s.replayPage with
    | some _ => some { s with pc := .check count }
    | none =>
      if s.iter < s.logged then
        some { s with replayPage := some s.iter, iter := s.iter + 1, pc := .check count }
      else some { s with pc := .tail true }
  | .check count =>
    s.replayPage.map fun n =>
      if s.lastRead < wal.lsn n then { s with pc := .tail true } else { s with pc := .add count }
  | .add count =>
    s.replayPage.map fun n =>
      { s with running := s.running ++ [⟨n, .running⟩], maxDispatched := wal.lsn n
               replayPage := none, pc := .sample (count + 1) }
  | _ => none

/-- What the dispatcher does around the loop. -/
def dispatchStep (batch : Nat) (s : State) : Option State :=
  match s.pc with
  | .idle => some { s with xlogReplayed := 0, pc := .remove }
  | .remove => some { s with pc := .sample 0 }
  | .tail done =>
    if done && s.running.isEmpty then some { s with pc := .advance }
    else some { s with pc := .readBg }
  | .advance =>
    some { s with bgReplayed := max s.bgReplayed (max s.xlogReplayed s.maxDispatched)
                  pc := .readBg }
  | .readBg => some { s with pc := .scan s.bgReplayed 0 0 }
  | .scan bg i result =>
    match s.backends[i]? with
    | none => some { s with pc := .write bg result }
    | some b => some { s with pc := .scan bg (i + 1) (minReplayLsn result b.readMin) }
  | .write bg result =>
    if s.oldest ≤ oldestReplayed bg result then
      some { s with oldest := oldestReplayed bg result, pc := .idle }
    else some { s with pc := .panicked }
  | .panicked => none
  | _ => dispatchLoop wal batch s

variable (s : State)

/-- `sched_remove_from_running_queue`, of a finished task. Tasks are removed at the start of
`polar_logindex_bg_dispatch`, and in `polar_sched_add_task` when a worker has no room. -/
def removeStep (k : Nat) : Option State :=
  match s.pc, s.running[k]? with
  | .remove, some ⟨_, .finished⟩ => some { s with running := s.running.eraseIdx k }
  | .add _, some ⟨_, .finished⟩ => some { s with running := s.running.eraseIdx k }
  | _, _ => none

/-- `polar_sched_add_task` returns `NULL`. -/
def fullStep : Option State :=
  match s.pc with
  | .add _ => some { s with pc := .tail false }
  | _ => none

/-- The LSN of the head of the running queue is that of the entry. -/
def headMatches (s : State) (n : Nat) : Bool :=
  s.running.head?.any fun head => wal.lsn head.entry == wal.lsn n

/-- The task at a position of the running queue goes on. -/
def setPhase (k : Nat) (t : Task) (phase : Phase) : State :=
  { s with running := s.running.set k ⟨t.entry, phase⟩ }

/-- `handle_replay_buffer` and `parallel_replay_task_finished`. -/
def taskStep (s : State) (k : Nat) : Option State :=
  match s.running[k]? with
  | none => none
  | some t =>
    match t.phase with
    | .running => some { setPhase s k t .replayed with replayed := t.entry :: s.replayed }
    | .replayed => some (setPhase s k t (.looked (headMatches wal s t.entry)))
    | .looked true =>
      some { setPhase s k t .finished with bgReplayed := max s.bgReplayed (wal.lsn t.entry) }
    | .looked false => some (setPhase s k t .finished)
    | .finished => none

/-- `polar_logindex_require_backend_redo` for the blocks of one read. -/
def announce (blocks : Nat) : Backend :=
  let replayFrom := if s.bgReplayed = 0 then s.redo else s.bgReplayed
  ⟨replayFrom, some ⟨replayFrom, s.redo, blocks⟩⟩

/-- `polar_exec_backend_redo`: the announcement is reset after every block. -/
def execBackendRedo (r : Replay) : Backend :=
  if r.blocks ≤ 1 then ⟨0, none⟩ else ⟨0, some { r with blocks := r.blocks - 1 }⟩

/-- A step of a backend. -/
def backendStep (b : Nat) (f : Backend → Option Backend) : Option State :=
  (s.backends[b]?.bind f).map fun new => { s with backends := s.backends.set b new }

/-- What a backend does to itself. -/
def backendMove : Op → Option (Nat × (Backend → Option Backend))
  | .announce b blocks =>
    some (b, fun x => if x.replay = none ∧ 0 < blocks then some (announce s blocks) else none)
  | .invalidPage b =>
    some (b, fun x => x.replay.map fun r =>
      ⟨x.readMin, some { r with replayFrom := r.redoLsn }⟩)
  | .block b => some (b, fun x => x.replay.map execBackendRedo)
  | .abort b => some (b, fun _ => some ⟨0, none⟩)
  | _ => none

def step (batch : Nat) (s : State) (op : Op) : Option State :=
  match op with
  | .startup => some (startupStep wal s)
  | .dispatch => dispatchStep wal batch s
  | .remove k => removeStep s k
  | .full => fullStep s
  | .task k => taskStep wal s k
  | .checkpoint lsn => if s.redo ≤ lsn then some { s with redo := lsn } else none
  | .announce _ _ | .invalidPage _ | .block _ | .abort _ =>
    (backendMove s op).bind fun m => backendStep s m.1 m.2

end Polar.ParallelReplay
