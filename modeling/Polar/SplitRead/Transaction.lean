import Polar.Base.Run
import Polar.SplitRead.Visibility

/-!
# The transaction on the primary and on the replica

The primary has a stack of subtransactions, the current one first. `ReadyForQuery` reports the
command id and the ids of the tree, and `polar_xact_split_begin` makes a transaction state of them
on the replica.
-/

namespace Polar.SplitRead

/-- A `TransactionState` of the stack. -/
structure Level where
  fullTransactionId : Option Nat
  /-- The full ids of the committed children. The array has their low 32 bits. -/
  children : List Nat
  /-- `TRANS_ABORT`. -/
  aborted : Bool

/-- `childXids`. -/
def Level.childXids (l : Level) : List Nat := l.children.map xidFromFull

/-- The ids of a level that is not aborted. -/
def Level.fulls (l : Level) : List Nat := l.fullTransactionId.toList ++ l.children

/-- The transaction of a session, and the heap. -/
structure State where
  levels : List Level
  /-- How many levels are below the one that the running command has started in. -/
  command : Option Nat
  /-- The next full id. -/
  nextFull : Nat
  /-- The ids that the tree has got. -/
  members : List Nat
  currentCommandId : Nat
  currentCommandIdUsed : Bool
  /-- The members that have written with the current command id. -/
  writers : List Nat
  /-- `polar_xact_splittable`. -/
  splittable : Bool
  heap : List Header
  /-- Where the WAL ends. -/
  wal : Nat
  /-- `XactLastRecEnd`. -/
  sessionLsn : Nat
  /-- The other transactions that have committed, and where their commit records end. -/
  commits : List (Nat × Nat)

/-- What a session can do. -/
inductive Op where
  /-- A command starts. Savepoints are set, released and rolled back between commands, and by the
  blocks of a function inside one. -/
  | begin
  | finish
  /-- An error that nothing inside the command catches: the subtransaction aborts. -/
  | fail
  /-- A subtransaction starts. -/
  | start
  /-- `AssignTransactionId` for the outermost level that has no id, after other transactions have got
  some. -/
  | assign (others : Nat)
  /-- The current subtransaction commits. -/
  | release
  /-- The current subtransaction aborts. -/
  | abort
  /-- The aborted subtransaction is taken off the stack. -/
  | cleanup
  /-- A tuple is inserted. The new version of a locked tuple keeps the lockers. -/
  | insert (len : Nat) (lockers : Option Nat)
  /-- A tuple is deleted, or updated, by a plain xid or in a multixact. -/
  | delete (i len : Nat) (multi : Option Nat)
  /-- A tuple is locked. -/
  | lock (i len : Nat)
  | commandCounterIncrement
  /-- Another transaction inserts a tuple. -/
  | foreignInsert (xid cmin : Nat)
  /-- Another transaction deletes a tuple. -/
  | foreignDelete (i xid cmax : Nat)
  /-- Another transaction locks a tuple, which gets a multixact when it has a deleter. -/
  | foreignLock (i multi : Nat)
  /-- Another transaction commits. -/
  | commit (xid len : Nat)
  /-- Another record is logged, by this session or not. -/
  | log (len : Nat) (own : Bool)

namespace State

/-- A transaction without an id. -/
def init (nextFull wal : Nat) (commits : List (Nat × Nat)) : State where
  levels := [⟨none, [], false⟩]
  command := none
  nextFull := nextFull
  members := []
  currentCommandId := 0
  currentCommandIdUsed := false
  writers := []
  splittable := true
  heap := []
  wal := wal
  sessionLsn := 0
  commits := commits.filter fun c => c.2 ≤ wal

variable (s : State)

/-- The commit record of the transaction ends at or before the position. -/
def committedBy (lsn xid : Nat) : Bool := s.commits.any fun c => c.1 = xid ∧ c.2 ≤ lsn

def memberXids : List Nat := s.members.map xidFromFull

/-- Some tuple or some other transaction that is still of interest has the id. -/
def usesXid (xid : Nat) : Bool :=
  s.commits.any (fun c => c.1 = xid) ||
    s.heap.any fun tup => tup.xmin = xid || tup.deleter = some xid

/-- `GetTopTransactionIdIfAny`. -/
def topTransactionId : Option Nat :=
  (s.levels.getLast?.bind Level.fullTransactionId).map xidFromFull

/-- `TransactionIdIsCurrentTransactionId` on the primary. -/
def isCurrent (xid : Nat) : Bool :=
  isNormal xid &&
    (s.topTransactionId == some xid ||
      s.levels.any fun l => !l.aborted && l.fullTransactionId.any fun full =>
        xidFromFull full == xid || Base.search precedes l.childXids xid)

/-- The outermost level without an id gets one. -/
def assignTo (full : Nat) : List Level → List Level
  | [] => []
  | [l] => [{ l with fullTransactionId := some full }]
  | l :: p :: rest =>
    if p.fullTransactionId.isSome then { l with fullTransactionId := some full } :: p :: rest
    else l :: assignTo full (p :: rest)

/-- The current level, when it goes on. -/
def current? : Option Level :=
  match s.levels with
  | l :: _ => if l.aborted then none else some l
  | [] => none

/-- A command does not end the subtransaction that it has started in. -/
def mayPop : Bool := s.command.all fun base => base + 1 < s.levels.length

/-- The id with which the running command writes. -/
def writer? : Option Nat :=
  if s.command.isSome then s.current?.bind Level.fullTransactionId else none

/-- The running command writes a record. -/
def write (full len : Nat) : State :=
  { s with
    wal := s.wal + len
    sessionLsn := s.wal + len
    currentCommandIdUsed := true
    writers := full :: s.writers }

/-- The tuple is there for the transaction, and nobody has deleted it. -/
def canModify (tup : Header) : Bool :=
  (s.isCurrent tup.xmin || s.committedBy s.wal tup.xmin) &&
    tup.deleter.all fun x => !s.isCurrent x && !s.committedBy s.wal x

/-- `CommandCounterIncrement`. -/
def increment : State :=
  if s.currentCommandIdUsed then
    { s with
      currentCommandId := s.currentCommandId + 1
      currentCommandIdUsed := false
      writers := [] }
  else s

def step : Op → Option State
  | .begin =>
    if s.command = none then s.current?.map fun _ => { s with command := some (s.levels.length - 1) }
    else none
  | .finish =>
    if s.command = some (s.levels.length - 1) then
      s.current?.map fun _ => { s.increment with command := none }
    else none
  | .fail =>
    match s.levels with
    | l :: p :: rest =>
      if s.command = some (p :: rest).length then
        some { s with
          levels := { l with children := [], aborted := true } :: p :: rest
          command := none }
      else none
    | _ => none
  | .start =>
    s.current?.map fun _ => { s with levels := ⟨none, [], false⟩ :: s.levels }
  | .assign others =>
    s.current?.bind fun l =>
      have full := s.nextFull + others
      -- `GetNewTransactionId` stops before the ids wrap around those in use.
      if l.fullTransactionId = none ∧ isNormal (xidFromFull full) ∧
          (∀ m ∈ s.members, full < m + 2 ^ 31) ∧ s.usesXid (xidFromFull full) = false then
        some { s with
          levels := assignTo full s.levels
          nextFull := full + 1
          members := full :: s.members }
      else none
  | .release =>
    match s.levels with
    | l :: p :: rest =>
      if l.aborted || !s.mayPop then none
      else if l.fullTransactionId.isSome then
        some { s with levels := { p with children := p.children ++ l.fulls } :: rest }
      else some { s with levels := p :: rest }
    | _ => none
  | .abort =>
    match s.levels with
    | l :: p :: rest =>
      if l.aborted || !s.mayPop then none
      else some { s with levels := { l with children := [], aborted := true } :: p :: rest }
    | _ => none
  | .cleanup =>
    match s.levels with
    | l :: p :: rest =>
      if l.aborted && s.mayPop then some { s with levels := p :: rest } else none
    | _ => none
  | .insert len lockers =>
    s.writer?.map fun full =>
      { s.write full len with
        heap := s.heap ++ [⟨xidFromFull full, s.currentCommandId, lockers.getD 0, 0, 0, false,
          lockers.isSome⟩] }
  | .delete i len multi =>
    s.writer?.bind fun full =>
      s.heap[i]?.bind fun tup =>
        if s.canModify tup then
          let xid := xidFromFull full
          some { s.write full len with
            heap := s.heap.set i { tup with
              xmax := multi.getD xid
              cmax := s.currentCommandId
              updateXid := xid
              xmaxIsMulti := multi.isSome
              xmaxLockedOnly := false }
            -- A tuple of the transaction itself gets a combo command id.
            splittable := s.splittable && !s.isCurrent tup.xmin }
        else none
  | .lock i len =>
    s.writer?.bind fun full =>
      s.heap[i]?.bind fun tup =>
        if s.canModify tup then
          some { s.write full len with
            heap := s.heap.set i { tup with
              xmax := xidFromFull full, xmaxIsMulti := false, xmaxLockedOnly := true } }
        else none
  | .commandCounterIncrement => some s.increment
  | .foreignInsert xid cmin =>
    if xid ∈ s.memberXids then none
    else some { s with heap := s.heap ++ [⟨xid, cmin, 0, 0, 0, false, false⟩] }
  | .foreignDelete i xid cmax =>
    s.heap[i]?.bind fun tup =>
      if xid ∈ s.memberXids ∨ tup.xmin ∈ s.memberXids ∨ tup.deleter.any s.isCurrent then none
      else
        some { s with heap := s.heap.set i { tup with
          xmax := xid, cmax := cmax, xmaxIsMulti := false, xmaxLockedOnly := false } }
  | .foreignLock i multi =>
    s.heap[i]?.map fun tup =>
      { s with heap := s.heap.set i (match tup.deleter with
        | some x => { tup with xmax := multi, updateXid := x, xmaxIsMulti := true }
        | none => { tup with xmax := multi, xmaxLockedOnly := true }) }
  | .commit xid len =>
    if xid ∈ s.memberXids then none
    else some { s with wal := s.wal + len, commits := s.commits ++ [(xid, s.wal + len)] }
  | .log len own =>
    some { s with
      wal := s.wal + len
      sessionLsn := if own then s.wal + len else s.sessionLsn }

/-- `polar_xact_split_xact_info`: the ids of the stack, the current subtransaction first, each with
its committed children. -/
def xactInfo : Option (Nat × List Nat) :=
  if s.splittable then
    some (s.currentCommandId,
      (s.levels.filter fun l => !l.aborted && l.fullTransactionId.isSome).flatMap fun l =>
        l.fullTransactionId.toList ++ l.childXids)
  else none

/-- What the primary knows for the next statement, where some of the transactions that have not
committed are running. -/
def env (csn : Bool) (running : Nat → Bool) : Env where
  isCurrent := s.isCurrent
  curcid := s.currentCommandId
  csn := csn
  inSnapshot := fun x => running x && !s.committedBy s.wal x
  didCommit := s.committedBy s.wal
  visibleCSN := s.committedBy s.wal
  committedVisibleCSN := s.committedBy s.wal

end State

/-- The transaction state that `polar_xact_split_begin` makes. -/
structure Split where
  currentCommandId : Nat
  fullTransactionId : Option Nat
  childXids : List Nat

/-- `polar_xact_split_begin`: the first id is that of the top level, and the others are children. -/
def splitBegin (info : Nat × List Nat) : Split :=
  match info.2 with
  | [] => ⟨0, none, []⟩
  | full :: rest => ⟨info.1, some full, sortXids (rest.map xidFromFull)⟩

namespace Split

variable (t : Split)

/-- `TransactionIdIsCurrentTransactionId` in the process that has begun the split. -/
def isCurrent (xid : Nat) : Bool :=
  isNormal xid && t.fullTransactionId.any fun full =>
    xidFromFull full == xid || Base.search precedes t.childXids xid

/-- `ParallelCurrentXids`, as `SerializeTransactionState` makes it. -/
def parallelCurrentXids : List Nat :=
  sortXids ((t.fullTransactionId.map xidFromFull).toList ++ t.childXids)

/-- `TransactionIdIsCurrentTransactionId` in a parallel worker. -/
def isCurrentWorker (xid : Nat) : Bool :=
  isNormal xid && Base.search (fun a b => decide (a < b)) t.parallelCurrentXids xid

/-- What the replica knows when it has replayed up to a position. -/
def env (s : State) (replayed : Nat) (worker csn : Bool) (running : Nat → Bool) : Env where
  isCurrent := if worker then t.isCurrentWorker else t.isCurrent
  curcid := t.currentCommandId
  csn := csn
  inSnapshot := fun x => running x && !s.committedBy replayed x
  didCommit := s.committedBy replayed
  visibleCSN := s.committedBy replayed
  committedVisibleCSN := s.committedBy replayed

end Split

/-- The header that redo makes: `FirstCommandId` for the command ids. -/
def Header.replayed (tup : Header) : Header := { tup with cmin := 0, cmax := 0 }

end Polar.SplitRead
