import Polar.Base.Run

/-!
# The doorbells of the WAL pipeline

Workers of the pipeliner poll for work and block on their wait object in
`polar_perform_spin_delay_mt`; `polar_wal_pipeline_signal_worker` rings a worker. Inserters ring
after they have copied their record, committers after they have set the shared request.

Positions are LSNs. The links of the recent-written array are kept as the position up to which
every record has been copied, and one call of `XLogWrite` or of the flush loop is one step.
-/

namespace Polar.Pipeline

open Function

/-- The threads of the pipeliner that advance, write and flush. -/
inductive Worker where
  | advance
  | write
  | flush
  deriving DecidableEq, Repr

/-- Where a worker is. -/
inductive WorkerPc where
  /-- About to run `polar_wal_pipeline_recent_written_advance`. -/
  | advance
  /-- About to read `LogwrtRqst`; `progress` is the result of the advance in the same round. -/
  | sample (progress : Bool)
  /-- About to read the ready position and write. -/
  | write (progress : Bool) (rqstWrite rqstFlush : Nat)
  /-- About to run `polar_wal_pipeline_flush`. -/
  | flush
  /-- In `polar_wal_pipeline_signal_worker`, on its fast or its slow path. -/
  | signal (target : Worker) (slow : Bool)
  /-- The round has found no work; about to take the mutex of the wait object. -/
  | idle
  | blocked
  /-- Released from `pthread_cond_timedwait`; about to consume the doorbell. -/
  | woken
  deriving DecidableEq, Repr

/-- Where a backend is. -/
inductive Proc where
  | idle
  /-- Copies a record; the bytes before `pos` are linked. -/
  | copying (pos endPos : Nat)
  /-- In `polar_wal_pipeliner_wakeup`, with the workers still to ring; then waits for `wait`. -/
  | ringing (targets : List Worker) (slow : Bool) (wait : Option Nat)
  /-- In the wait loop of `polar_wal_pipeline_commit_wait`. -/
  | waiting (lsn : Nat)
  deriving DecidableEq, Repr

/-- The positions that the workers look at, and the processes. -/
structure State where
  reserved : Nat
  ready : Nat
  rqstWrite : Nat
  rqstFlush : Nat
  logWriteResult : Nat
  logFlushResult : Nat
  /-- `LogwrtResult.Flush` of the write worker. -/
  localFlush : Nat
  wakeupPending : Worker → Bool
  /-- A signal call for the worker has returned since its last round began. -/
  rung : Worker → Bool
  pc : Worker → WorkerPc
  procs : List Proc

variable (mode : Nat)

/-- The threads that `polar_wal_pipeliner_init_mode_n` starts, with the main thread. -/
def runs : Worker → Bool
  | .advance => mode == 3 || mode == 5
  | .write => true
  | .flush => mode == 4 || mode == 5

/-- The start of a round. -/
def startPc : Worker → WorkerPc
  | .advance => .advance
  | .write => if mode = 3 ∨ mode = 5 then .sample false else .advance
  | .flush => .flush

/-- The workers that `polar_wal_pipeliner_wakeup` rings. -/
def wakeupTargets : List Worker :=
  if mode = 3 then [.advance, .write]
  else if mode = 4 then [.flush]
  else if mode = 5 then [.advance, .flush]
  else [.write]

namespace State

/-- All shared positions are equal and the workers begin their first round. -/
def init (mode lsn backends : Nat) : State :=
  { reserved := lsn, ready := lsn, rqstWrite := lsn, rqstFlush := lsn, logWriteResult := lsn,
    logFlushResult := lsn, localFlush := 0, wakeupPending := fun _ => false,
    rung := fun _ => false, pc := startPc mode, procs := List.replicate backends .idle }

variable (s : State)

/-- The first position that is not linked yet. -/
def frontier : Nat :=
  s.procs.foldr (fun p n => match p with | .copying pos _ => min pos n | _ => n) s.reserved

def setPc (w : Worker) (pc : WorkerPc) : State :=
  { s with pc := update s.pc w pc }

def setProc (i : Nat) (p : Proc) : State := { s with procs := s.procs.set i p }

/-- The worker begins a round. -/
def startRound (s : State) (w : Worker) : State :=
  { s with rung := update s.rung w false }.setPc w (startPc mode w)

/-- The worker consumes its doorbell and begins a round. -/
def consume (s : State) (w : Worker) : State :=
  { s with wakeupPending := update s.wakeupPending w false }.startRound mode w

/-- A signal call for the worker returns. -/
def signalled (w : Worker) : State :=
  { s with rung := update s.rung w true }

/-- The slow path of `polar_wal_pipeline_signal_worker`, under the mutex of the wait object. -/
def ring (w : Worker) : State :=
  let s := { s with wakeupPending := update s.wakeupPending w true }
  (if s.pc w = .blocked then s.setPc w .woken else s).signalled w

/-- The part of a round of the write worker that writes; in modes 4 and 5 `XLogWrite` leaves the
flush to the flush worker. `segEnd` is the end of the last segment it finishes. -/
def xlogWrite (s : State) (rqstWrite rqstFlush segEnd : Nat) : State :=
  let flushed := if mode ≤ 3 then s.logFlushResult else s.localFlush
  let written := max s.logWriteResult rqstWrite
  let flushed := max flushed (min segEnd written)
  let flushed := if flushed < rqstFlush ∧ flushed < written then written else flushed
  { s with
    logWriteResult := written, localFlush := flushed,
    logFlushResult := if mode ≤ 3 then flushed else s.logFlushResult }

end State

/-- The steps. A worker's step gives how far it gets where that depends on the chunks of the
records, on segment ends or on the entries of the unflushed ring. -/
inductive Op where
  | reserve (i len : Nat)
  | copy (i len : Nat)
  | commit (i lsn : Nat)
  | ring (i : Nat)
  | wake (i : Nat)
  | work (w : Worker) (upTo : Nat)
  /-- Another turn of the spin loop, or a spurious wakeup. -/
  | spin (w : Worker)
  deriving Repr

namespace State

/-- A step of a worker. -/
def work (s : State) (w : Worker) (upTo : Nat) : Option State :=
  match s.pc w with
  | .advance =>
    if s.ready < s.frontier then
      if s.ready < upTo ∧ upTo ≤ s.frontier then
        some ({ s with ready := upTo }.setPc w
          (if w = Worker.write then .sample true else .signal .write false))
      else none
    else some (s.setPc w (if w = Worker.write then .sample false else .idle))
  | .sample progress => some (s.setPc w (.write progress s.rqstWrite s.rqstFlush))
  | .write progress rqstWrite rqstFlush =>
    if min rqstWrite s.ready ≤ s.logWriteResult ∧ min rqstFlush s.ready ≤ s.localFlush then
      some (if progress then s.startRound mode w else s.setPc w .idle)
    else
      let s := s.xlogWrite mode (min rqstWrite s.ready) (min rqstFlush s.ready) upTo
      some (if mode ≤ 3 then s.startRound mode w else s.setPc w (.signal .flush false))
  | .flush =>
    if s.logWriteResult ≤ s.logFlushResult then some (s.setPc w .idle)
    else if s.logFlushResult ≤ upTo ∧ upTo ≤ max s.logFlushResult s.localFlush then
      some ({ s with logFlushResult := upTo }.startRound mode w)
    else none
  | .signal target slow =>
    if slow then some ((s.ring target).startRound mode w)
    else if s.wakeupPending target then some ((s.signalled target).startRound mode w)
    else some (s.setPc w (.signal target true))
  | .idle => some (if s.wakeupPending w then s.consume mode w else s.setPc w .blocked)
  | .blocked => none
  | .woken => some (s.consume mode w)

/-- A step of a backend inside `polar_wal_pipeliner_wakeup`. -/
def ringStep (s : State) (i : Nat) (wait : Option Nat) (slow : Bool) : List Worker → State
  | [] => s.setProc i (match wait with | none => .idle | some lsn => .waiting lsn)
  | w :: targets =>
    if slow then (s.ring w).setProc i (.ringing targets false wait)
    else if s.wakeupPending w then (s.signalled w).setProc i (.ringing targets false wait)
    else s.setProc i (.ringing (w :: targets) true wait)

/-- A step of the system. -/
def step (s : State) : Op → Option State
  | .reserve i len =>
    match s.procs[i]? with
    | some .idle =>
      if 0 < len then
        some ({ s with reserved := s.reserved + len }.setProc i
          (.copying s.reserved (s.reserved + len)))
      else none
    | _ => none
  | .copy i len =>
    match s.procs[i]? with
    | some (.copying pos endPos) =>
      if pos + len < endPos then some (s.setProc i (.copying (pos + len) endPos))
      else if pos + len = endPos then
        some (s.setProc i (.ringing (wakeupTargets mode) false none))
      else none
    | _ => none
  | .commit i lsn =>
    match s.procs[i]? with
    | some .idle =>
      if s.logFlushResult < lsn ∧ lsn ≤ s.reserved then
        some ({ s with
            rqstWrite := max s.rqstWrite lsn, rqstFlush := max s.rqstFlush lsn }.setProc i
          (.ringing (wakeupTargets mode) false (some lsn)))
      else none
    | _ => none
  | .ring i =>
    match s.procs[i]? with
    | some (.ringing targets slow wait) => some (s.ringStep i wait slow targets)
    | _ => none
  | .wake i =>
    match s.procs[i]? with
    | some (.waiting lsn) => if lsn ≤ s.logFlushResult then some (s.setProc i .idle) else none
    | _ => none
  | .work w upTo => if runs mode w then s.work mode w upTo else none
  | .spin w =>
    if runs mode w ∧ s.pc w = .idle then some (s.startRound mode w)
    else if s.pc w = .blocked then some (s.setPc w .woken)
    else none

/-- A backend that copies a record or rings a worker. -/
def busy : Proc → Bool
  | .copying _ _ | .ringing _ _ _ => true
  | .idle | .waiting _ => false

/-- A committer waits, nobody copies or rings, and every worker sleeps with its doorbell silent. -/
def Stuck (s : State) : Prop :=
  (∀ p ∈ s.procs, busy p = false) ∧
    (∃ lsn, .waiting lsn ∈ s.procs ∧ s.logFlushResult < lsn) ∧
    ∀ w, runs mode w → s.pc w = .blocked ∧ s.wakeupPending w = false

end State

end Polar.Pipeline
