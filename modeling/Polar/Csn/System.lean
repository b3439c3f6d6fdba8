import Polar.Base.Run
import Mathlib.Logic.Function.Basic
import Mathlib.Order.Nat

/-!
# Transactions with commit sequence numbers

Backends allocate xids, commit and abort trees of them in the csnlog, take snapshots read by read,
and compute horizons by scanning the procs one after the other. A step is one access to shared
memory, except that a scan reads the flags of a proc with its xid, `GetNewTransactionId` extends the
csnlog with the step that advances `nextXid`, under `XidGenLock`, and the update of
`polar_latest_completed_xid` and the removal of segments are one step each. Writes to `pg_xact` are
left out, since nothing here reads it. Xids are full xids: the allocator stops before the 32-bit
comparison of two live xids can wrap around.
-/

namespace Polar.Csn

/-- `POLAR_CSN_FROZEN`. -/
def csnFrozen : Nat := 3

/-- `POLAR_CSN_FIRST_NORMAL`. -/
def csnFirstNormal : Nat := 4

/-- `CSNLOG_XACTS_PER_PAGE`. -/
def csnlogXactsPerPage : Nat := 1024

/-- `TransactionIdToPageNo`. -/
def pageNo (xid : Nat) : Nat := xid / csnlogXactsPerPage

/-- `BATCH_SIZE`: so many pages are zeroed at a time. -/
def batchSize : Nat := 128

/-- `SLRU_PAGES_PER_SEGMENT`. -/
def slruPagesPerSegment : Nat := 32

/-- The segment of the csnlog that holds the entry of the xid. -/
def segmentNo (xid : Nat) : Nat := pageNo xid / slruPagesPerSegment

/-- `SlruMayDeleteSegment`, for the segment that starts with page `segpage`. -/
def mayDeleteSegment (segpage cutoffPage : Nat) : Bool :=
  segpage < cutoffPage && segpage + slruPagesPerSegment - 1 < cutoffPage

/-- An entry of the csnlog. -/
inductive Entry where
  | inProgress
  | subtrans (parent : Nat)
  | committing
  | committed (csn : Nat)
  | aborted
  deriving DecidableEq, Repr

namespace Entry

/-- The entries that `polar_csnlog_get_next_active_xid` stops at. -/
def active : Entry → Bool
  | inProgress | committing => true
  | _ => false

/-- The transaction is over. -/
def final : Entry → Bool
  | committed _ | aborted => true
  | _ => false

end Entry

/-- A snapshot with a csn. -/
structure Snapshot where
  xmin : Nat
  xmax : Nat
  csn : Nat
  deriving DecidableEq, Repr

/-- Where a backend is, with the values it has read. -/
inductive Pc where
  /-- Outside the functions modelled here. -/
  | run
  /-- `GetNewTransactionId` holds `XidGenLock` and has advanced `nextXid`. -/
  | assign (xid : Nat) (parent : Option Nat)
  /-- Before `polar_csnlog_set_parent`. -/
  | attach (xid parent : Nat)
  /-- `GetSnapshotDataCSN` has read `polar_oldest_active_xid`. -/
  | snapRead (xmin : Nat)
  /-- It has published `MyProc->xmin`. -/
  | snapPublished (xmin : Nat)
  /-- It has read `polar_oldest_active_xid` again, with a new value. -/
  | snapReread (xmin : Nat)
  | snapXmin (xmin : Nat)
  /-- It has read `polar_next_csn`. -/
  | snapCsn (xmin csn : Nat)
  /-- The commit is in pg_xact. -/
  | commitClog
  /-- `polar_latest_completed_xid` covers the tree. -/
  | commitLatest
  /-- The top xid is marked as committing. -/
  | commitMark
  /-- In `polar_csnlog_set_csn`: the entries of `todo`, a rest of `xids`, are to be written. -/
  | stamp (value : Entry) (xids todo : List Nat) (top : Bool)
  /-- Before `ProcArrayEndTransactionCSN`. -/
  | stamped
  /-- In it, with the xid cleared. -/
  | clearing (myXid : Nat)
  /-- In `AdvanceOldestActiveXidCSN`. -/
  | advance (myXid : Nat)
  | advanceNext (oldValue xid : Nat)
  /-- In the loop of `polar_csnlog_get_next_active_xid`. -/
  | advanceScan (oldValue xid nextXid : Nat)
  | advanceCas (oldValue xid : Nat)
  deriving DecidableEq, Repr

/-- The proc of a backend, and where it is. -/
structure Backend where
  /-- `ProcGlobal->xids[]`. -/
  xid : Option Nat
  /-- The live subtransactions with their parents, the newest first. -/
  subxids : List (Nat × Nat)
  /-- `MyProc->xmin`. -/
  xmin : Option Nat
  transactionXmin : Option Nat
  /-- `PROC_IN_VACUUM` or `PROC_IN_LOGICAL_DECODING`. -/
  flagged : Bool
  snapshots : List Snapshot
  pc : Pc
  deriving DecidableEq, Repr

/-- `TransactionXmin` is `FirstNormalTransactionId` in a new process. -/
def Backend.init : Backend :=
  { xid := none, subxids := [], xmin := none, transactionXmin := some 3, flagged := false
    snapshots := [], pc := .run }

/-- The tree of the transaction, children before parents. -/
def Backend.members (b : Backend) : List Nat :=
  match b.xid with
  | none => []
  | some xid => b.subxids.map Prod.fst ++ [xid]

/-- A top xid is assigned once; a subtransaction belongs to the tree. -/
def Backend.mayAllocate (b : Backend) : Option Nat → Bool
  | none => b.xid.isNone
  | some parent => parent ∈ b.members

/-- A live subtransaction and what descends from it. -/
def subtree (sub : Nat) : List (Nat × Nat) → List Nat
  | [] => []
  | (xid, parent) :: rest =>
    let below := subtree sub rest
    if xid = sub ∨ parent ∈ below then xid :: below else below

/-- What the backends share. -/
structure Shared where
  nextXid : Nat
  oldestActiveXid : Nat
  latestCompletedXid : Nat
  nextCsn : Nat
  csnlog : Nat → Entry
  /-- `latest_page_number` of the csnlog. -/
  latestPage : Nat
  /-- `XidGenLock` is held. -/
  xidGenLock : Bool

namespace Shared

/-- After a restart before xid `xid`: every older transaction is over. -/
def init (xid : Nat) (rolledBack : Nat → Bool) : Shared :=
  { nextXid := xid, oldestActiveXid := xid, latestCompletedXid := xid - 1
    nextCsn := csnFirstNormal
    csnlog := fun x =>
      if x < xid then if rolledBack x then .aborted else .committed csnFrozen else .inProgress
    latestPage := pageNo xid / batchSize * batchSize + batchSize - 1
    xidGenLock := false }

/-- `polar_update_latest_completed`. -/
def updateLatestCompleted (sh : Shared) (xids : List Nat) : Shared :=
  { sh with latestCompletedXid := xids.foldl max sh.latestCompletedXid }

def setCsn (sh : Shared) (xid : Nat) (value : Entry) : Shared :=
  { sh with csnlog := Function.update sh.csnlog xid value }

/-- The latest page after `polar_csnlog_extend`: a batch of pages is zeroed for its first xid. -/
def csnlogExtend (sh : Shared) (xid : Nat) : Nat :=
  if xid % csnlogXactsPerPage ≠ 0 ∧ xid % 2 ^ 32 ≠ 3 then sh.latestPage
  else if pageNo xid % batchSize ≠ 0 then sh.latestPage
  else pageNo xid + batchSize - 1

end Shared

/-- What a backend does. -/
inductive Act where
  /-- Allocate an xid, for a subtransaction of `parent` if one is given. -/
  | allocate (parent : Option Nat)
  | snapshot
  /-- `SnapshotResetXmin` when the snapshots in `keep` are left. -/
  | resetXmin (keep : List Snapshot)
  /-- `ProcArrayEndTransactionCSN` without an xid. -/
  | endTransaction
  | setFlags
  | commit
  | abort
  | abortSub (sub : Nat)
  /-- The next step of what the backend is in. -/
  | next
  deriving Repr

namespace Backend

/-- The next step of a function the backend is in. -/
def next (sh : Shared) (b : Backend) : Option (Shared × Backend) :=
  match b.pc with
  | .run => none
  | .assign xid none =>
    some ({ sh with xidGenLock := false }, { b with xid := some xid, pc := .run })
  | .assign xid (some parent) =>
    some ({ sh with xidGenLock := false },
      { b with subxids := (xid, parent) :: b.subxids, pc := .attach xid parent })
  | .attach xid parent => some (sh.setCsn xid (.subtrans parent), { b with pc := .run })
  | .snapRead xmin =>
    if b.xmin.isSome then some (sh, { b with pc := .snapXmin xmin })
    else
      some (sh, { b with
        xmin := some xmin, transactionXmin := some xmin, pc := .snapPublished xmin })
  | .snapPublished xmin =>
    if sh.oldestActiveXid = xmin then some (sh, { b with pc := .snapXmin xmin })
    else some (sh, { b with pc := .snapReread sh.oldestActiveXid })
  | .snapReread xmin =>
    some (sh, { b with xmin := some xmin, transactionXmin := some xmin, pc := .snapXmin xmin })
  | .snapXmin xmin => some (sh, { b with pc := .snapCsn xmin sh.nextCsn })
  | .snapCsn xmin csn =>
    some (sh, { b with
      snapshots := ⟨xmin, sh.latestCompletedXid + 1, csn⟩ :: b.snapshots, pc := .run })
  | .commitClog => some (sh.updateLatestCompleted b.members, { b with pc := .commitLatest })
  | .commitLatest => do
      let xid ← b.xid
      return (sh.setCsn xid .committing, { b with pc := .commitMark })
  | .commitMark =>
    some ({ sh with nextCsn := sh.nextCsn + 1 },
      { b with pc := .stamp (.committed sh.nextCsn) b.members b.members true })
  | .stamp value xids (xid :: todo) top =>
    some (sh.setCsn xid value, { b with pc := .stamp value xids todo top })
  | .stamp _ xids [] top =>
    if top then some (sh, { b with pc := .stamped })
    else
      some (sh, { b with
        subxids := b.subxids.filter fun sub => sub.1 ∉ xids, pc := .run })
  | .stamped => do
      let xid ← b.xid
      return (sh, { b with xid := none, subxids := [], snapshots := [], pc := .clearing xid })
  | .clearing myXid =>
    some (sh, { b with xmin := none, flagged := false, pc := .advance myXid })
  | .advance myXid =>
    if myXid = sh.oldestActiveXid then
      some (sh, { b with pc := .advanceNext myXid (myXid + 1) })
    else some (sh, { b with pc := .run })
  | .advanceNext oldValue xid =>
    some (sh, { b with pc := .advanceScan oldValue xid sh.nextXid })
  | .advanceScan oldValue xid nextXid =>
    if xid < nextXid ∧ (sh.csnlog xid).active = false then
      some (sh, { b with pc := .advanceScan oldValue (xid + 1) nextXid })
    else if xid = oldValue then some (sh, { b with pc := .run })
    else some (sh, { b with pc := .advanceCas oldValue xid })
  | .advanceCas oldValue xid =>
    if sh.oldestActiveXid = oldValue then
      some ({ sh with oldestActiveXid := xid }, { b with pc := .advanceNext xid xid })
    else some (sh, { b with pc := .run })

/-- A step of a backend. -/
def act (sh : Shared) (b : Backend) : Act → Option (Shared × Backend)
  | .next => b.next sh
  | .allocate parent =>
    if b.pc = .run ∧ sh.xidGenLock = false ∧ b.mayAllocate parent = true then
      some ({ sh with
          nextXid := sh.nextXid + 1, latestPage := sh.csnlogExtend sh.nextXid, xidGenLock := true },
        { b with pc := .assign sh.nextXid parent })
    else none
  | .snapshot =>
    if b.pc = .run then some (sh, { b with pc := .snapRead sh.oldestActiveXid }) else none
  | .resetXmin keep =>
    if b.pc = .run ∧ ∀ snap ∈ keep, snap ∈ b.snapshots then
      match keep.map Snapshot.xmin with
      | [] => some (sh, { b with snapshots := [], xmin := none, transactionXmin := none })
      | first :: rest =>
        let minXmin := rest.foldl min first
        match b.xmin with
        | some xmin =>
          if xmin < minXmin then
            some (sh, { b with
              snapshots := keep, xmin := some minXmin, transactionXmin := some minXmin })
          else some (sh, { b with snapshots := keep })
        | none => none
    else none
  | .endTransaction =>
    if b.pc = .run ∧ b.xid = none then
      some (sh, { b with snapshots := [], xmin := none, flagged := false })
    else none
  | .setFlags =>
    if b.pc = .run ∧ b.xid = none ∧ b.xmin = none ∧ b.snapshots = [] then
      some (sh, { b with flagged := true })
    else none
  | .commit =>
    if b.pc = .run ∧ b.xid.isSome then
      some (sh, { b with pc := .commitClog })
    else none
  | .abort =>
    if b.pc = .run ∧ b.xid.isSome then
      some (sh.updateLatestCompleted b.members,
        { b with pc := .stamp .aborted b.members b.members true })
    else none
  | .abortSub sub =>
    let xids := subtree sub b.subxids
    if b.pc = .run ∧ b.xid.isSome ∧ xids ≠ [] then
      some (sh.updateLatestCompleted xids, { b with pc := .stamp .aborted xids xids false })
    else none

end Backend

/-- A process in `ComputeXidHorizons`, or in a checkpoint around it. -/
inductive Scan where
  | idle
  /-- A checkpoint has read `polar_oldest_active_xid` before its redo point. -/
  | redo (oldestActiveXid : Nat)
  /-- Going to look at proc `index`. -/
  | procs (redo : Option Nat) (horizon index : Nat)
  /-- It has read the flags and the xid of the proc. -/
  | proc (redo : Option Nat) (horizon index : Nat) (flagged : Bool) (xid : Option Nat)
  /-- The checkpoint has its horizon. -/
  | truncate (redo horizon : Nat)
  deriving DecidableEq, Repr

/-- Shared memory, the backends and the scanners. -/
structure State where
  shared : Shared
  backends : Nat → Backend
  scans : List Scan
  /-- The values of `shared_oldest_nonremovable` returned so far. -/
  horizons : List Nat
  /-- The cutoff page of the truncations so far. -/
  cutoffPage : Nat
  /-- The csnlog segments that are removed. -/
  removed : Nat → Bool

/-- One step of a backend or of a scanner. -/
inductive Op where
  | backend (p : Nat) (act : Act)
  /-- A new process that computes horizons. -/
  | scanner
  /-- The scanner begins a checkpoint. -/
  | checkpoint (j : Nat)
  /-- The next step of the scanner; the slots' xmins are read with the procs. -/
  | scan (j : Nat) (slotXmin slotCatalogXmin : Option Nat)
  deriving Repr

/-- `TransactionIdOlder` with a valid first xid. -/
def older (xid : Nat) : Option Nat → Nat
  | none => xid
  | some xid' => min xid xid'

namespace State

def init (xid : Nat) (rolledBack : Nat → Bool) : State :=
  { shared := .init xid rolledBack, backends := fun _ => .init, scans := [], horizons := []
    cutoffPage := 0, removed := fun _ => false }

def setScan (s : State) (j : Nat) (scan : Scan) : State :=
  { s with scans := s.scans.set j scan }

/-- `polar_csnlog_truncate`: `SimpleLruTruncate` gives up when the latest page precedes the
cutoff. -/
def csnlogTruncate (s : State) (oldestXact : Nat) : State :=
  let cutoffPage := pageNo oldestXact
  { s with
    cutoffPage := max s.cutoffPage cutoffPage
    removed := if s.shared.latestPage < cutoffPage then s.removed
      else fun segment =>
        s.removed segment || mayDeleteSegment (segment * slruPagesPerSegment) cutoffPage }

/-- A step of a scanner over `numProcs` procs. -/
def scanStep (numProcs : Nat) (s : State) (j : Nat) (slotXmin slotCatalogXmin : Option Nat) :
    Scan → State
  | .idle => s.setScan j (.procs none (s.shared.latestCompletedXid + 1) 0)
  | .redo oldest => s.setScan j (.procs (some oldest) (s.shared.latestCompletedXid + 1) 0)
  | .procs redo horizon index =>
    if index < numProcs then
      let b := s.backends index
      s.setScan j (.proc redo horizon index b.flagged b.xid)
    else
      let horizon := older (older horizon slotXmin) slotCatalogXmin
      { s.setScan j (match redo with
          | none => .idle
          | some oldest => .truncate oldest horizon) with
        horizons := horizon :: s.horizons }
  | .proc redo horizon index flagged xid =>
    let b := s.backends index
    s.setScan j (.procs redo
      (if flagged then horizon else older (older horizon b.xmin) xid) (index + 1))
  | .truncate oldest horizon => (s.setScan j .idle).csnlogTruncate (min horizon oldest)

def step (numProcs : Nat) (s : State) : Op → Option State
  | .backend p act =>
    if p < numProcs then
      ((s.backends p).act s.shared act).map fun (shared, b) =>
        { s with shared, backends := Function.update s.backends p b }
    else none
  | .scanner => some { s with scans := s.scans ++ [.idle] }
  | .checkpoint j =>
    if s.scans[j]? = some .idle then some (s.setScan j (.redo s.shared.oldestActiveXid))
    else none
  | .scan j slotXmin slotCatalogXmin =>
    s.scans[j]?.map (s.scanStep numProcs j slotXmin slotCatalogXmin)

end State

end Polar.Csn
