import Polar.Base.Run
import Mathlib.Logic.Function.Basic
import Mathlib.Data.List.Basic

/-!
# Synchronous DDL on the primary

A backend that has logged an `AccessExclusiveLock` waits in `SyncRepWaitForLSN` until the replicas
hold it. Each replica reports the position up to which it has taken locks, and the walsender that
receives the report raises `WalSndCtl->lsn[POLAR_SYNC_DDL_WAIT_APPLY]` to the smallest position of
all slots and wakes who waits for less. Both hold `SyncRepLock`, and look at the slots one by one,
holding `ReplicationSlotControlLock`: the set of slots stays while they look, and the positions may
change.
-/

namespace Polar.SyncDdl

/-- A `ReplicationSlot`. -/
structure Slot where
  inUse : Bool
  /-- `active_pid` is not zero. -/
  active : Bool
  /-- `polar_replica_lock_lsn`, zero when nothing is reported. -/
  lockLsn : Nat
  /-- What the process that is attached has reported. -/
  attachedLsn : Nat

/-- The slot belongs to a replica. -/
def Slot.isReplica (slot : Slot) : Bool := slot.inUse && slot.lockLsn != 0

/-- What a process does that holds `SyncRepLock`. -/
inductive Job where
  /-- `polar_get_ddl_applyptr(NULL, NULL)` for a wait. -/
  | check (proc i : Nat)
  /-- `polar_get_ddl_applyptr` for a release. -/
  | scan (i ddlApplyptr : Nat) (replicaSlotExist replicaSlotAllActive : Bool)
  /-- The release after it. -/
  | act (ddlApplyptr : Nat) (replicaSlotExist replicaSlotAllActive : Bool)

/-- A backend in `SyncRepWaitForLSN`, with the position that it waits for. `seen` tells whether
since the call there was a moment at which every replica had reported that position. -/
inductive Wait where
  | idle
  /-- It has not got `SyncRepLock`. -/
  | called (lsn : Nat) (seen : Bool)
  /-- It holds the lock, and looks for a replica. -/
  | checking (lsn : Nat) (seen : Bool)
  /-- `SYNC_REP_WAITING`. -/
  | waiting (lsn : Nat) (seen : Bool)
  /-- `SYNC_REP_WAIT_COMPLETE`. -/
  | complete (lsn : Nat) (seen : Bool)
  /-- It has returned without an error, and the file is about to be truncated or unlinked. -/
  | returned (lsn : Nat) (seen : Bool)

/-- The slots, the positions and the waits of the backends. -/
structure State where
  maxSlots : Nat
  slots : Nat → Slot
  /-- `WalSndCtl->lsn[POLAR_SYNC_DDL_WAIT_APPLY]`. -/
  lsn : Nat
  /-- `WalSndCtl->SyncRepQueue[POLAR_SYNC_DDL_WAIT_APPLY]`, with the `waitLSN` of each. -/
  queue : List (Nat × Nat)
  /-- Who holds `SyncRepLock`. -/
  job : Option Job
  waits : Nat → Wait
  /-- The files that are gone: what was waited for, and whether there was such a moment. -/
  removals : List (Nat × Bool)

variable (s : State)

/-- Every replica has reported the position. -/
def State.Reached (lsn : Nat) : Prop :=
  ∀ i < s.maxSlots, (s.slots i).isReplica = true → lsn ≤ (s.slots i).lockLsn

instance (s : State) (lsn : Nat) : Decidable (s.Reached lsn) :=
  inferInstanceAs (Decidable (∀ i < s.maxSlots, _ → _))

/-- The wait takes note of the moment. -/
def Wait.note (reached : Nat → Bool) : Wait → Wait
  | .called lsn seen => .called lsn (seen || reached lsn)
  | .checking lsn seen => .checking lsn (seen || reached lsn)
  | .waiting lsn seen => .waiting lsn (seen || reached lsn)
  | .complete lsn seen => .complete lsn (seen || reached lsn)
  | w => w

/-- `SyncRepQueueInsert`: after the last that waits for less. -/
def queueInsert (proc lsn : Nat) (queue : List (Nat × Nat)) : List (Nat × Nat) :=
  let after := (queue.reverse.takeWhile fun q => lsn ≤ q.2).reverse
  queue.take (queue.length - after.length) ++ (proc, lsn) :: after

/-- `SyncRepWakeQueue`: who is woken, and who stays. -/
def wakeQueue (all : Bool) (lsn : Nat) : List (Nat × Nat) → List (Nat × Nat) × List (Nat × Nat)
  | [] => ([], [])
  | q :: queue =>
    if !all && lsn < q.2 then ([], q :: queue)
    else (q :: (wakeQueue all lsn queue).1, (wakeQueue all lsn queue).2)

/-- One step of a backend, of a walsender or on a slot. -/
inductive Op where
  | createSlot (i : Nat)
  | attach (i : Nat)
  | detach (i : Nat)
  | dropSlot (i : Nat)
  /-- `polar_record_replica_lsn`. -/
  | report (i lockLsn : Nat)
  /-- A backend calls `SyncRepWaitForLSN`. -/
  | call (proc lsn : Nat)
  /-- It gets `SyncRepLock`. -/
  | acquire (proc : Nat)
  /-- A process calls `polar_release_ddl_waiters` and gets `SyncRepLock`. -/
  | release
  /-- Who holds the lock looks at the next slot, or goes on after the last. -/
  | go
  /-- The loop sees `SYNC_REP_WAIT_COMPLETE`. -/
  | woken (proc : Nat)
  /-- The wait is cancelled, with an error. -/
  | cancel (proc : Nat)
  /-- The wait ends because the postmaster is gone. -/
  | postmasterDeath (proc : Nat)
  /-- The file is truncated or unlinked. -/
  | remove (proc : Nat)

namespace State

/-- No slot is in use, and nobody waits. -/
def init (maxSlots : Nat) : State where
  maxSlots := maxSlots
  slots := fun _ => ⟨false, false, 0, 0⟩
  lsn := 0
  queue := []
  job := none
  waits := fun _ => .idle
  removals := []

/-- A process holds `ReplicationSlotControlLock`. -/
def looking : Bool :=
  match s.job with
  | some (.check ..) | some (.scan ..) => true
  | _ => false

def setSlot (i : Nat) (slot : Slot) : State :=
  { s with slots := Function.update s.slots i slot }

def setWait (proc : Nat) (w : Wait) : State :=
  { s with waits := Function.update s.waits proc w }

/-- A backend is woken. -/
def complete (woken : List (Nat × Nat)) (waits : Nat → Wait) (proc : Nat) : Wait :=
  if proc ∈ woken.map Prod.fst then
    match waits proc with
    | .waiting lsn seen => .complete lsn seen
    | w => w
  else waits proc

/-- `SyncRepWakeQueue`, after which the lock is released. -/
def wake (all : Bool) : State :=
  { s with
    queue := (wakeQueue all s.lsn s.queue).2
    waits := complete (wakeQueue all s.lsn s.queue).1 s.waits
    job := none }

/-- `SyncRepCancelWait`. -/
def cancelWait (proc : Nat) (w : Wait) : State :=
  { s.setWait proc w with queue := s.queue.filter fun q => q.1 ≠ proc }

/-- The next step of who holds `SyncRepLock`. -/
def jobStep : Job → Option State
  | .check proc i =>
    match s.waits proc with
    | .checking lsn seen =>
      if i < s.maxSlots then
        if (s.slots i).isReplica then
          some { s.setWait proc (.waiting lsn seen) with
            queue := queueInsert proc lsn s.queue, job := none }
        else some { s with job := some (.check proc (i + 1)) }
      else some { s.setWait proc (.returned lsn seen) with job := none }
    | _ => none
  | .scan i ddlApplyptr exist allActive =>
    if i < s.maxSlots then
      let slot := s.slots i
      if slot.isReplica then
        some { s with job := some (.scan (i + 1)
          (if ddlApplyptr = 0 ∨ slot.lockLsn < ddlApplyptr then slot.lockLsn else ddlApplyptr)
          true (allActive && slot.active)) }
      else some { s with job := some (.scan (i + 1) ddlApplyptr exist allActive) }
    else some { s with job := some (.act ddlApplyptr exist allActive) }
  | .act ddlApplyptr exist allActive =>
    if !exist then some (s.wake true)
    else if !allActive then some { s with job := none }
    else if s.lsn < ddlApplyptr then some ({ s with lsn := ddlApplyptr }.wake false)
    else some { s with job := none }

/-- One step of the code. -/
def stepCore : Op → Option State
  | .createSlot i =>
    if i < s.maxSlots ∧ (s.slots i).inUse = false ∧ s.looking = false then
      some (s.setSlot i ⟨true, true, 0, 0⟩)
    else none
  | .attach i =>
    if (s.slots i).inUse ∧ (s.slots i).active = false then
      some (s.setSlot i { s.slots i with active := true, attachedLsn := 0 })
    else none
  | .detach i =>
    if (s.slots i).active then some (s.setSlot i { s.slots i with active := false }) else none
  | .dropSlot i =>
    if (s.slots i).inUse ∧ s.looking = false then
      some (s.setSlot i { s.slots i with inUse := false, active := false })
    else none
  | .report i lockLsn =>
    -- Within one attachment what is reported does not decrease.
    if (s.slots i).inUse ∧ (s.slots i).active ∧ lockLsn ≠ 0 ∧
        (s.slots i).attachedLsn ≤ lockLsn then
      some (s.setSlot i { s.slots i with lockLsn := lockLsn, attachedLsn := lockLsn })
    else none
  | .call proc lsn =>
    match s.waits proc with
    | .idle => some (s.setWait proc (.called lsn false))
    | _ => none
  | .acquire proc =>
    match s.waits proc, s.job with
    | .called lsn seen, none =>
      if lsn ≤ s.lsn then some (s.setWait proc (.returned lsn seen))
      else some { s.setWait proc (.checking lsn seen) with job := some (.check proc 0) }
    | _, _ => none
  | .release =>
    match s.job with
    | none => some { s with job := some (.scan 0 0 false true) }
    | some _ => none
  | .go => s.job.bind s.jobStep
  | .woken proc =>
    match s.waits proc with
    | .complete lsn seen => some (s.setWait proc (.returned lsn seen))
    | _ => none
  | .cancel proc =>
    match s.waits proc, s.job with
    | .waiting _ _, none | .complete _ _, none => some (s.cancelWait proc .idle)
    | _, _ => none
  | .postmasterDeath proc =>
    match s.waits proc, s.job with
    | .waiting lsn seen, none | .complete lsn seen, none =>
      some (s.cancelWait proc (.returned lsn seen))
    | _, _ => none
  | .remove proc =>
    match s.waits proc with
    | .returned lsn seen =>
      some { s.setWait proc .idle with removals := (lsn, seen) :: s.removals }
    | _ => none

/-- Every backend that waits takes note of the new state. -/
def observe : State :=
  { s with waits := fun proc => (s.waits proc).note fun lsn => decide (s.Reached lsn) }

/-- One step, and what is noted after it. -/
def step (op : Op) : Option State := (s.stepCore op).map observe

/-- The smallest position that a release in progress has seen, if it has passed the slot and will
use what it has seen. -/
def pending (i : Nat) : Nat :=
  match s.job with
  | some (.scan j ddlApplyptr _ true) => if i < j then ddlApplyptr else 0
  | some (.act ddlApplyptr _ true) => ddlApplyptr
  | _ => 0

/-- A release that finds its first replica has not passed one that has reported less in the
meantime. -/
def FirstFound : Option Job → Prop
  | some (.scan i ddlApplyptr _ allActive) =>
    ddlApplyptr = 0 → allActive = true → (s.slots i).isReplica = true →
      ∀ j < i, (s.slots j).isReplica = true → (s.slots i).lockLsn ≤ (s.slots j).lockLsn
  | _ => True

instance (s : State) (job : Option Job) : Decidable (s.FirstFound job) :=
  match job with
  | some (.scan _ _ _ _) => inferInstanceAs (Decidable (_ → _ → _ → ∀ j < _, _ → _))
  | none | some (.check _ _) | some (.act _ _ _) => isTrue trivial

/-- No report is below what was taken for the position of all replicas, by a release that is done or
by one in progress, and no wait ends because the postmaster is gone. -/
def Behaved : Op → Prop
  | .report i lockLsn => s.lsn ≤ lockLsn ∧ s.pending i ≤ lockLsn
  | .go => s.FirstFound s.job
  | .postmasterDeath _ => False
  | _ => True

instance (s : State) (op : Op) : Decidable (s.Behaved op) :=
  match op with
  | .report i lockLsn => inferInstanceAs (Decidable (s.lsn ≤ lockLsn ∧ s.pending i ≤ lockLsn))
  | .go => inferInstanceAs (Decidable (s.FirstFound s.job))
  | .postmasterDeath _ => isFalse id
  | .createSlot _ | .attach _ | .detach _ | .dropSlot _ | .call _ _ | .acquire _ | .release
  | .woken _ | .cancel _ | .remove _ => isTrue trivial

end State

end Polar.SyncDdl
