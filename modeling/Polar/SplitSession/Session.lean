import Polar.Base.Run
import Polar.SplitRead.Visibility
import Mathlib.Logic.Function.Basic

/-!
# A session of a replica with `polar_xact_split_xids`

The assign hook of the setting writes the ids of another transaction into the transaction state of
the session. The commit and the abort take them out again, but the setting may be restored after
that, and the hook is called once more.

A replica never assigns an id of its own, and never uses up a command id.
-/

namespace Polar.SplitSession

open SplitRead (Hints sortXids xidFromFull)

/-- A value of `polar_xact_split_xids`, with the numbers of the list. -/
inductive Setting where
  | empty
  /-- `SplitIdentifierString` fails. -/
  | malformed
  | list (items : List Nat)
  deriving DecidableEq, Repr

/-- The `blockState` of the top transaction. -/
inductive Block where
  | default
  | started
  | implicitInProgress
  | inProgress
  | parallelInProgress
  | abort
  deriving DecidableEq, Repr

/-- The errors of the assign hook. -/
inductive HookError where
  /-- Unable to start xact split in primary -/
  | primary
  /-- Unable to start xact split without begin -/
  | withoutBegin
  /-- Unable to start xact split under xact with XID assigned -/
  | xidAssigned
  /-- polar_xact_split_xids is not an valid xid array -/
  | invalidArray
  /-- polar_xact_split_xids is too short. -/
  | tooShort
  deriving DecidableEq, Repr

/-- The transaction state of a process. An id is invalid if it is 0. -/
structure Xact where
  blockState : Block
  xactTopFullTransactionId : Nat
  fullTransactionId : Nat
  childXids : List Nat
  currentCommandId : Nat
  parallelCurrentXids : List Nat
  polarSplitXact : Bool
  deriving DecidableEq, Repr

/-- `FirstCommandId`. -/
def firstCommandId : Nat := 0

/-- What `SerializeTransactionState` writes. -/
structure Serialized where
  topFullTransactionId : Nat
  currentFullTransactionId : Nat
  currentCommandId : Nat
  parallelCurrentXids : List Nat
  deriving DecidableEq, Repr

namespace Xact

/-- A process that has just started. -/
def fresh : Xact := ⟨.default, 0, 0, [], firstCommandId, [], false⟩

variable (x : Xact)

/-- `polar_xact_split_end`. -/
def splitEnd : Xact :=
  if !x.polarSplitXact then x
  else { x with
    childXids := []
    fullTransactionId := 0
    currentCommandId := firstCommandId
    polarSplitXact := false }

/-- `polar_xact_split_begin`. The state after an error is that after `polar_xact_split_end`. -/
def splitBegin (primary : Bool) (x : Xact) (newval : Setting) : Except HookError Xact :=
  match newval with
  | .empty => .ok x.splitEnd
  | .malformed =>
    if primary then .error .primary
    else if x.blockState = .started then .error .withoutBegin
    else if x.xactTopFullTransactionId ≠ 0 then .error .xidAssigned
    else .error .invalidArray
  | .list items =>
    if primary then .error .primary
    else if x.blockState = .started then .error .withoutBegin
    else if x.xactTopFullTransactionId ≠ 0 then .error .xidAssigned
    else
      match items with
      | cid :: xid :: children =>
        .ok { x.splitEnd with
          currentCommandId := cid % 2 ^ 32
          fullTransactionId := xid % 2 ^ 64
          childXids := sortXids (x.splitEnd.childXids ++ children.map (· % 2 ^ 32))
          polarSplitXact := true }
      | _ => .error .tooShort

/-- `StartTransaction`, up to the state of the block. -/
def startTransaction : Xact :=
  { x with fullTransactionId := 0, childXids := [], currentCommandId := firstCommandId }

/-- The end of `CommitTransaction` and of `CleanupTransaction`. -/
def cleanup : Xact :=
  { x with
    blockState := .default
    fullTransactionId := 0
    childXids := []
    xactTopFullTransactionId := 0
    parallelCurrentXids := [] }

/-- `SerializeTransactionState`. -/
def serialize : Serialized where
  topFullTransactionId := x.xactTopFullTransactionId
  currentFullTransactionId := x.fullTransactionId
  currentCommandId := x.currentCommandId
  parallelCurrentXids :=
    if x.parallelCurrentXids ≠ [] then x.parallelCurrentXids
    else sortXids
      ((if x.fullTransactionId ≠ 0 then [xidFromFull x.fullTransactionId] else []) ++ x.childXids)

/-- `StartParallelWorkerTransaction`. -/
def startParallelWorkerTransaction (tstate : Serialized) : Xact :=
  { x.startTransaction with
    xactTopFullTransactionId := tstate.topFullTransactionId
    fullTransactionId := tstate.currentFullTransactionId
    currentCommandId := tstate.currentCommandId
    parallelCurrentXids := tstate.parallelCurrentXids
    blockState := .parallelInProgress }

/-- The part of `ParallelWorkerMain` that takes over the state of the leader. `RestoreGUCState` runs
in a transaction of its own; a setting that has its default is not sent, which is the same as
`empty`. -/
def parallelWorkerMain (setting : Setting) (tstate : Serialized) : Except HookError Xact :=
  match { fresh.startTransaction with blockState := .started }.splitBegin false setting with
  | .error e => .error e
  | .ok worker => .ok (worker.splitEnd.cleanup.startParallelWorkerTransaction tstate)

/-- The state of a transaction without id. -/
def Clean : Prop :=
  x.fullTransactionId = 0 ∧ x.childXids = [] ∧ x.currentCommandId = firstCommandId

end Xact

/-- A call of `SetHintBits`, with what it reads of the buffer and of the commit. -/
structure HintCall where
  tuple : Nat
  infomask : Hints
  xid : Nat
  commitLSN : Nat
  pageLSN : Nat
  isPermanent : Bool
  needsFlush : Bool

/-- The hints with those of the mask. -/
def orHints (a b : Hints) : Hints where
  xminCommitted := a.xminCommitted || b.xminCommitted
  xminInvalid := a.xminInvalid || b.xminInvalid
  xmaxCommitted := a.xmaxCommitted || b.xmaxCommitted
  xmaxInvalid := a.xmaxInvalid || b.xmaxInvalid

/-- `SetHintBits`, in the process with the given state. -/
def setHintBits (x : Xact) (hints : Nat → Hints) (c : HintCall) : Nat → Hints :=
  if x.polarSplitXact then hints
  else if c.xid ≠ 0 ∧ c.isPermanent = true ∧ c.needsFlush = true ∧ c.pageLSN < c.commitLSN then hints
  else Function.update hints c.tuple (orHints (hints c.tuple) c.infomask)

/-- A statement: how many workers it launches, and the calls of `SetHintBits` that its visibility
checks make in all processes, in their order; the leader is process 0. -/
structure Statement where
  workers : Nat
  calls : List (Nat × HintCall)

/-- The transaction state, the setting and the hint bits. -/
structure Session where
  xact : Xact
  setting : Setting
  /-- The hint bits of the tuples in the shared buffers. -/
  hints : Nat → Hints
  /-- The error that is raised. -/
  raised : Bool
  /-- The last value assigned in this transaction, or given back at its end. -/
  assigned : Setting

namespace Session

/-- A new session. -/
def init (hints : Nat → Hints) : Session := ⟨.fresh, .empty, hints, false, .empty⟩

variable (s : Session)

/-- A transaction is in progress. -/
def InTransaction : Prop :=
  s.xact.blockState = .started ∨ s.xact.blockState = .implicitInProgress ∨
    s.xact.blockState = .inProgress

instance (s : Session) : Decidable s.InTransaction :=
  inferInstanceAs (Decidable (_ ∨ _ ∨ _))

/-- A worker of the session. -/
def worker : Except HookError Xact :=
  Xact.parallelWorkerMain s.setting s.xact.serialize

/-- The hint bits after the calls. A worker that has failed makes none. -/
def runCalls (stmt : Statement) : Nat → Hints :=
  stmt.calls.foldl (fun hints (process, c) =>
    if process = 0 then setHintBits s.xact hints c
    else if process ≤ stmt.workers then
      match s.worker with
      | .ok w => setHintBits w hints c
      | .error _ => hints
    else hints) s.hints

/-- A statement; the error of a worker is raised in the leader. -/
def execute (stmt : Statement) : Session :=
  { s with
    hints := s.runCalls stmt
    raised := decide (0 < stmt.workers) && match s.worker with
      | .ok _ => false
      | .error _ => true }

/-- The assign hook for a `SET`. -/
def assign (newval : Setting) : Session :=
  match s.xact.splitBegin false newval with
  | .ok x => { s with xact := x, setting := newval, assigned := newval }
  | .error _ => { s with xact := s.xact.splitEnd, raised := true, assigned := .empty }

/-- The value that is given back at the end of a transaction or of a subtransaction, if there is
one. An error is raised again by every attempt to abort, and the process does not get on. -/
def restore : Option Setting → Option Session
  | none => some s
  | some prior =>
    match s.xact.splitBegin false prior with
    | .ok x => some { s with xact := x, setting := prior, assigned := prior }
    | .error _ => none

/-- `AbortTransaction`. -/
def abortTransaction (prior : Option Setting) : Option Session :=
  ({ s with xact := s.xact.splitEnd, raised := false, assigned := .empty } : Session).restore prior

/-- `CommitTransaction`, or the end of an abort in `CleanupTransaction`. -/
def cleanup (s : Session) : Session := { s with xact := s.xact.cleanup }

end Session

/-- A command of the session. -/
inductive Op where
  /-- `StartTransactionCommand` without a transaction. -/
  | start
  /-- `BEGIN`, or a query of several statements. -/
  | begin (implicit : Bool)
  /-- `SET`, `SET LOCAL` or `RESET`. -/
  | assign (newval : Setting)
  /-- The end of a subtransaction gives the value back. -/
  | endSubtransaction (prior : Option Setting)
  | statement (stmt : Statement)
  /-- An error aborts the transaction. -/
  | error (prior : Option Setting)
  | commit (prior : Option Setting)
  | rollback (prior : Option Setting)

namespace Session

/-- One command. -/
def step (s : Session) : Op → Option Session
  | .start =>
    if s.xact.blockState = .default then
      some { s with
        xact := { s.xact.startTransaction with blockState := .started }
        assigned := .empty }
    else none
  | .begin implicit =>
    if s.xact.blockState = .started ∧ s.raised = false then
      some { s with xact.blockState := if implicit then .implicitInProgress else .inProgress }
    else none
  | .assign newval =>
    if s.InTransaction ∧ s.raised = false then some (s.assign newval) else none
  | .endSubtransaction prior =>
    if s.InTransaction ∧ s.raised = false then s.restore prior else none
  | .statement stmt =>
    if s.InTransaction ∧ s.raised = false then some (s.execute stmt) else none
  | .error prior =>
    if s.xact.blockState = .inProgress then
      (s.abortTransaction prior).map fun t => { t with xact.blockState := .abort }
    else if s.InTransaction then (s.abortTransaction prior).map cleanup
    else none
  | .commit prior =>
    if s.InTransaction ∧ s.raised = false then
      (({ s with xact := s.xact.splitEnd, assigned := .empty } : Session).restore prior).map cleanup
    else none
  | .rollback prior =>
    if s.xact.blockState = .inProgress ∧ s.raised = false then
      (s.abortTransaction prior).map cleanup
    else if s.xact.blockState = .abort then some s.cleanup
    else none

/-- The statement leaves no hint bits, and every worker gets to its transaction with the ids and the
command id of the leader: it would pass on what the leader passes on. -/
def Kept (s : Session) (stmt : Statement) : Prop :=
  (∀ k < stmt.workers, ∃ w, s.worker = .ok w ∧ w.blockState = .parallelInProgress ∧
    w.serialize = s.xact.serialize) ∧
  (s.execute stmt).hints = s.hints

/-- The state after the transaction, or once the setting is cleared. A list that is given back at
the end of a transaction leaves its command id, until the next transaction starts. -/
structure TornDown (s : Session) : Prop where
  ended : s.xact.blockState = .default → s.xact.fullTransactionId = 0 ∧ s.xact.childXids = []
  cleared : s.assigned = .empty → s.xact.Clean

end Session

end Polar.SplitSession
