import Polar.LockReplay.Step

/-!
# Records wait for the locks of their transaction

The startup process looks up the xid of a record, and waits for the last lock of that xid. Every
lock that this xid took before is then held. The locks of the other members of the transaction tree
are not waited for.
-/

namespace Polar.LockReplay

open List

variable {wal : Wal} {s t : State}

/-- A record of `RM_XACT_ID`. -/
def Body.isXact : Body → Bool
  | .xact _ _ => true
  | _ => false

/-- What the primary writes: a lock belongs to a transaction, and a transaction that is not running
writes nothing more. -/
structure WellFormed (wal : Wal) : Prop where
  lock_valid : ∀ i locks, (wal.record i).body = .locks locks → ∀ l ∈ locks, l.xid ≠ 0
  ended : ∀ k i xid, k < i → (wal.record k).body.Ends xid → (wal.record i).body.isXact = false →
    xid ≠ 0 → (wal.record i).xid ≠ xid

/-- A record is replayed after the locks that it waits for. -/
structure GateInv (wal : Wal) (s : State) : Prop where
  valid : ∀ e ∈ s.lockTbl, e.lock.xid ≠ 0
  gate : ∀ k, s.stage = .redo k → (wal.record s.current).body.isXact = false → ∀ e ∈ s.lockTbl,
    e.lock.xid = (wal.record s.current).xid → e.lsn ≤ s.lastReplayed → e.state.pending = false
  running : s.stage ≠ .panicked

namespace GateInv

theorem init : GateInv wal (.init wal) :=
  ⟨by simp [State.init], by simp [State.init], by simp [State.init]⟩

section

variable (h : GateInv wal s)
include h

/-- A step that leaves the stage of a replay, or enters one that does not wait. -/
theorem setStage (hlock : t.lockTbl = s.lockTbl) (hrunning : t.stage ≠ .panicked)
    (hgate : ∀ k, t.stage = .redo k → (wal.record t.current).body.isXact = true) : GateInv wal t :=
  ⟨hlock ▸ h.valid, fun k hk hx => absurd (hx.symm.trans (hgate k hk)) (by decide), hrunning⟩

theorem addAsyncLock (hinv : Inv wal s) (hwf : WellFormed wal) {k : Nat} {l : Lock}
    {locks : List Lock} (hstage : s.stage = .redo k)
    (hbody : (wal.record s.current).body = .locks locks) (hl : locks[k]? = some l) :
    GateInv wal { s.addAsyncLock l (wal.record s.current).stop s.lastReplayed with
      stage := .redo (k + 1) } := by
  have hlast : s.lastReplayed < (wal.record s.current).stop := hinv.lastReplayed ▸ wal.before_lt _
  cases hfind : s.findLock l with
  | some e =>
    simp only [State.addAsyncLock, hfind]
    exact ⟨h.valid, fun _ _ hx => h.gate k hstage hx, by simp⟩
  | none =>
    simp only [State.addAsyncLock, hfind]
    refine ⟨?_, ?_, by simp⟩
    · exact forall_mem_append.mpr ⟨h.valid, forall_mem_singleton.mpr
        (hwf.lock_valid s.current locks hbody l (mem_of_getElem? hl))⟩
    · intro _ _ hx e he hxid hle
      rcases mem_append.mp he with he | he
      · exact h.gate k hstage hx e he hxid hle
      · -- the locks of the record itself are not waited for
        rw [mem_singleton.mp he] at hle
        exact absurd hle (Nat.not_le.mpr hlast)

theorem redoStep (hinv : Inv wal s) (hwf : WellFormed wal) {k : Nat}
    (hstage : s.stage = .redo k) : GateInv wal (s.redoStep wal k) := by
  have hadvance : ∀ u : State, u.lockTbl = s.lockTbl → GateInv wal (u.advance wal) :=
    fun u hu => h.setStage hu (by simp [State.advance]) (by simp [State.advance])
  cases hbody : (wal.record s.current).body with
  | locks locks =>
    cases hl : locks[k]? with
    | some l =>
      simp only [State.redoStep, hbody, hl]
      exact h.addAsyncLock hinv hwf hstage hbody hl
    | none =>
      simp only [State.redoStep, hbody, hl]
      exact hadvance s rfl
  | xact xids hasAeLocks =>
    have hx : (wal.record s.current).body.isXact = true := by rw [hbody]; rfl
    cases hxid : xids[k]? with
    | some xid =>
      simp only [State.redoStep, hbody, hxid]
      exact h.setStage rfl (by simp) fun _ _ => hx
    | none =>
      simp only [State.redoStep, hbody, hxid]
      split
      · exact h.setStage rfl (by simp) (by simp)
      · exact hadvance s rfl
  | runningXacts oldxid prepared =>
    simp only [State.redoStep, hbody]
    exact hadvance _ rfl
  | other =>
    simp only [State.redoStep, hbody]
    exact hadvance s rfl

/-- A transaction that was marked as not running has no record at the gate. -/
theorem not_panic (hinv : Inv wal s) (hwf : WellFormed wal)
    (hstage : s.stage = .gate) (hbody : (wal.record s.current).body.isXact = false) {x : Xact}
    (hx : x ∈ s.xactTbl) (hxid : x.xid = (wal.record s.current).xid) (hrun : x.running = false) :
    False := by
  have hne : x.xid ≠ 0 := by
    obtain ⟨pre, e, post, htbl, hlock, hlx, _⟩ := hinv.xact.last x hx
    rw [← hlx, ← hlock]
    exact h.valid e (htbl ▸ mem_append_right _ mem_cons_self)
  rcases hinv.finished x hx hrun with hzero | ⟨k, hk, hends⟩
  · exact hne hzero
  · have hlt : k < s.current := by simpa [State.begun, hstage] using hk
    exact hwf.ended k s.current x.xid hlt hends hbody hne hxid.symm

theorem startupStep (hinv : Inv wal s) (hwf : WellFormed wal)
    (hgateX : s.stage = .gate → (wal.record s.current).body.isXact = false)
    (hs : s.startupStep wal = some t) : GateInv wal t := by
  cases hstage : s.stage with
  | idle =>
    simp only [State.startupStep, hstage] at hs
    split at hs <;> cases hs
    · next hbody => exact h.setStage rfl (by simp) fun _ _ => by simp only [hbody]; rfl
    · exact h.setStage rfl (by simp) (by simp)
  | gate =>
    have hgate := hinv.gateOk (wal.record s.current).xid
    simp only [State.startupStep, hstage] at hs
    split at hs <;> cases hs
    · next hpass =>
      rw [hpass] at hgate
      exact ⟨h.valid, fun _ _ _ e he hxid _ => hgate.2 e he hxid, by simp⟩
    · next hpanic =>
      rw [hpanic] at hgate
      obtain ⟨x, hx, hxid, hrun⟩ := hgate
      exact absurd (h.not_panic hinv hwf hstage (hgateX hstage) hx hxid hrun) id
  | redo k =>
    simp only [State.startupStep, hstage] at hs
    cases hs
    exact h.redoStep hinv hwf hstage
  | release k =>
    simp only [State.startupStep, hstage] at hs
    split at hs
    · split at hs <;> cases hs
      · exact h.setStage rfl (by simp) (by simp)
      · exact h.setStage rfl (by simp [State.advance]) (by simp [State.advance])
    · cases hs
  | panicked => exact absurd hstage h.running

/-- The worker moves entries out of the way of the gate only. -/
theorem worker {u : State} (hcur : u.current = s.current) (hstage : u.stage = s.stage)
    (hlast : u.lastReplayed = s.lastReplayed)
    (hold : ∀ a ∈ u.lockTbl, ∃ e ∈ s.lockTbl, e.lock = a.lock ∧ e.lsn = a.lsn ∧
      (e.state.pending = false → a.state.pending = false)) : GateInv wal u := by
  refine ⟨?_, ?_, hstage ▸ h.running⟩
  · intro a ha
    obtain ⟨e, he, hlock, _⟩ := hold a ha
    exact hlock ▸ h.valid e he
  · intro k hk hx a ha hxid hle
    obtain ⟨e, he, hlock, hlsn, hpending⟩ := hold a ha
    rw [hcur] at hx hxid
    apply hpending
    apply h.gate k (hstage ▸ hk) hx e he
    · rwa [hlock]
    · rw [hlsn, ← hlast]
      exact hle

end

/-- The state of a lock changes, not back to pending. -/
theorem setState_old (u : State) (l : Lock) (state : LockState)
    (hpending : ∀ e ∈ u.lockTbl, e.lock = l → e.state.pending = false → state.pending = false) :
    ∀ a ∈ (u.setState l state).lockTbl, ∃ e ∈ u.lockTbl, e.lock = a.lock ∧ e.lsn = a.lsn ∧
      (e.state.pending = false → a.state.pending = false) := by
  intro a ha
  obtain ⟨e, he, rfl⟩ := mem_map.mp ha
  by_cases hl : e.lock = l
  · rw [if_pos hl]
    exact ⟨e, he, rfl, rfl, hpending e he hl⟩
  · rw [if_neg hl]
    exact ⟨e, he, rfl, rfl, id⟩

theorem popHead (h : GateInv wal s) (hinv : Inv wal s) (hidle : s.worker = .idle) :
    GateInv wal s.popHead := by
  have htbl := hinv.tbl
  rw [hidle] at htbl
  rcases htbl.popHead_cases with ⟨_, hpop⟩ | ⟨e, _, he, hstate, ⟨_, hpop, _⟩ | ⟨hpop, _⟩⟩
  · rw [hpop]
    exact { h with }
  · rw [hpop]
    exact h.worker rfl rfl rfl (setState_old s e.lock .skip fun _ _ _ _ => rfl)
  · have hold := setState_old s e.lock .getting fun a ha hlock hdone => by
      rw [htbl.eq_of_lock ha he hlock, hstate] at hdone
      cases hdone
    rw [hpop]
    exact h.worker rfl rfl rfl hold

theorem workerStep (h : GateInv wal s) (hinv : Inv wal s) : GateInv wal s.workerStep := by
  cases hw : s.worker with
  | idle =>
    have hr : GateInv wal s.releaseFinished := h.worker rfl rfl rfl fun a ha =>
      ⟨a, mem_of_mem_filter ha, rfl, rfl, id⟩
    simp only [State.workerStep, hw]
    exact hr.popHead (hinv.releaseFinished hw) hw
  | getting l =>
    simp only [State.workerStep, hw]
    exact h.worker rfl rfl rfl (setState_old s l .got fun _ _ _ _ => rfl)
  | got l =>
    simp only [State.workerStep, hw]
    exact { h with }

end GateInv

/-- Only a record that is not of `RM_XACT_ID` is at the gate. -/
def AtGate (wal : Wal) (s : State) : Prop :=
  s.stage = .gate → (wal.record s.current).body.isXact = false

theorem redoStep_stage (wal : Wal) (s : State) (k : Nat) : (s.redoStep wal k).stage ≠ .gate := by
  cases hbody : (wal.record s.current).body with
  | locks locks => cases hl : locks[k]? <;> simp [State.redoStep, hbody, hl, State.advance]
  | xact xids hasAeLocks =>
    cases hx : xids[k]? <;> cases hasAeLocks <;>
      simp [State.redoStep, hbody, hx, State.advance]
  | runningXacts oldxid prepared | other => simp [State.redoStep, hbody, State.advance]

theorem AtGate.startupStep (hs : s.startupStep wal = some t) : AtGate wal t := by
  intro hgate
  cases hstage : s.stage with
  | idle =>
    simp only [State.startupStep, hstage] at hs
    split at hs <;> cases hs
    · cases hgate
    · next hbody =>
      cases hb : (wal.record s.current).body with
      | xact xids hasAeLocks => exact absurd hb (hbody xids hasAeLocks)
      | locks | runningXacts | other => rfl
  | gate =>
    simp only [State.startupStep, hstage] at hs
    split at hs <;> cases hs <;> cases hgate
  | redo k =>
    simp only [State.startupStep, hstage] at hs
    cases hs
    exact absurd hgate (redoStep_stage wal s k)
  | release k =>
    simp only [State.startupStep, hstage] at hs
    split at hs
    · split at hs <;> cases hs <;> cases hgate
    · cases hs
  | panicked => simp [State.startupStep, hstage] at hs

theorem popHead_stage (s : State) : s.popHead.stage = s.stage ∧ s.popHead.current = s.current := by
  unfold State.popHead
  split
  · exact ⟨rfl, rfl⟩
  · split <;> exact ⟨rfl, rfl⟩

theorem workerStep_stage (s : State) :
    s.workerStep.stage = s.stage ∧ s.workerStep.current = s.current := by
  cases hw : s.worker with
  | idle =>
    simp only [State.workerStep, hw]
    exact popHead_stage s.releaseFinished
  | getting l => simp [State.workerStep, hw, State.setState]
  | got l => simp [State.workerStep, hw]

/-- All that holds of a run. -/
structure WaitInv (wal : Wal) (s : State) : Prop where
  inv : Inv wal s
  gate : GateInv wal s
  atGate : AtGate wal s

theorem WaitInv.step (h : WaitInv wal s) (hwf : WellFormed wal) {op : Op}
    (hs : s.step wal op = some t) : WaitInv wal t := by
  have hinv := h.inv.step hs
  cases op with
  | startup => exact ⟨hinv, h.gate.startupStep h.inv hwf h.atGate hs, .startupStep hs⟩
  | worker =>
    cases hs
    refine ⟨hinv, h.gate.workerStep h.inv, ?_⟩
    rw [AtGate, (workerStep_stage s).1, (workerStep_stage s).2]
    exact h.atGate
  | readApply =>
    cases hs
    exact ⟨hinv, { h.gate with }, h.atGate⟩
  | reply =>
    obtain ⟨a, _, rfl⟩ := Option.map_eq_some_iff.mp hs
    exact ⟨hinv, { h.gate with }, h.atGate⟩

/-- `l` was logged before record `i` by the transaction tree that writes record `i`, and is not
released by then. -/
def TreeHolds (wal : Wal) (top : Nat → Nat) (i : Nat) (l : Lock) : Prop :=
  (wal.record i).body.isXact = false ∧ (wal.record i).xid ≠ 0 ∧
    (∃ j < i, ∃ locks, (wal.record j).body = .locks locks ∧ l ∈ locks) ∧
    top l.xid = top (wal.record i).xid ∧ ∀ k ≤ i, ¬ (wal.record k).body.Ends l.xid

/-- While a record is applied, the worker holds the locks of the transaction tree. -/
def LocksHeld (wal : Wal) (top : Nat → Nat) (s : State) : Prop :=
  ∀ k, s.stage = .redo k → ∀ l, TreeHolds wal top s.current l →
    ∃ e ∈ s.lockTbl, e.lock = l ∧ e.state = .got

/-- A record is written under the xid that took the locks. -/
def OwnLocks (wal : Wal) (top : Nat → Nat) : Prop :=
  ∀ i l, TreeHolds wal top i l → l.xid = (wal.record i).xid

theorem WaitInv.locksHeld (h : WaitInv wal s) {top : Nat → Nat} (hwf : WellFormed wal)
    (hown : OwnLocks wal top) : LocksHeld wal top s := by
  intro k hstage l htree
  have hxid := hown s.current l htree
  obtain ⟨hbody, _, ⟨j, hj, locks, hlocks, hl⟩, _, hheld⟩ := htree
  have hnot : ¬ s.Ended wal l.xid := by
    rintro (hzero | ⟨i, hi, hends⟩)
    · exact hwf.lock_valid j locks hlocks l hl hzero
    · rw [Inv.begun_redo hstage] at hi
      exact hheld i (Nat.lt_succ_iff.mp hi) hends
  rcases h.inv.logged j l ⟨locks, hlocks, .inl ⟨hj, hl⟩⟩ with ⟨e, he, rfl, hle⟩ | hended
  · have hlast : e.lsn ≤ s.lastReplayed := by
      rw [h.inv.lastReplayed]
      refine hle.trans ?_
      obtain ⟨n, hn⟩ := Nat.exists_eq_add_of_lt hj
      rw [hn]
      exact Wal.stop_le_stop (Nat.le_add_right j n)
    have hdone := h.gate.gate k hstage hbody e he hxid hlast
    refine ⟨e, he, rfl, ?_⟩
    cases hs : e.state with
    | idle | getting => simp [hs, LockState.pending] at hdone
    | got => rfl
    | skip => exact absurd (h.inv.skip e he hs) hnot
  · exact absurd hended hnot

/-- If records are written under the xid that took the locks, they wait for them; the panic is out
of reach whoever writes them. -/
theorem ddl_records_wait (wal : Wal) (top : Nat → Nat) (hwf : WellFormed wal) :
    (OwnLocks wal top → ∀ s, Reaches (State.step wal) (fun _ _ => True) (.init wal) s →
      LocksHeld wal top s) ∧
    ∀ s, Reaches (State.step wal) (fun _ _ => True) (.init wal) s → s.stage ≠ .panicked := by
  have hall : ∀ s, Reaches (State.step wal) (fun _ _ => True) (.init wal) s → WaitInv wal s := by
    intro s run
    exact run.invariant (WaitInv wal) ⟨.init, .init, by simp [AtGate, State.init]⟩
      fun _ _ _ h _ hs => h.step hwf hs
  constructor
  · intro hown s run
    exact (hall s run).locksHeld hwf hown
  · intro s run
    exact (hall s run).gate.running

/-- Record 0 takes a lock under `xid`, and record 1 is written by transaction 7. -/
def ddlWal (xid : Nat) : Wal where
  record i :=
    { stop := 10 * (i + 2), xid := if i = 0 then xid else if i = 1 then 7 else 0
      body := if i = 0 then .locks [⟨xid, 1, 5⟩] else .other }
  begin := 10
  begin_pos := Nat.le_add_right 1 9
  begin_lt := by simp
  stop_lt _ := by dsimp only; omega

theorem ddlWal_not_ends (xid k x : Nat) : ¬ ((ddlWal xid).record k).body.Ends x := by
  simp only [ddlWal]
  split <;> exact id

theorem ddlWal_wellFormed {xid : Nat} (hxid : xid ≠ 0) : WellFormed (ddlWal xid) where
  lock_valid i locks hbody l hl := by
    simp only [ddlWal] at hbody
    split at hbody
    · rw [← Body.locks.inj hbody] at hl
      rwa [mem_singleton.mp hl]
    · cases hbody
  ended k _ x _ hends := absurd hends (ddlWal_not_ends xid k x)

theorem ddlWal_ownLocks : OwnLocks (ddlWal 7) id := by
  rintro i l ⟨_, hne, ⟨j, hj, locks, hlocks, hl⟩, htop, _⟩
  exact htop

/-- Transaction 7 takes a lock, and its next record waits for it. -/
theorem ddl_records_wait_own : ∃ s,
    Reaches (State.step (ddlWal 7)) (fun _ _ => True) (.init (ddlWal 7)) s ∧
      (LocksHeld (ddlWal 7) id s ∧ s.stage ≠ .panicked) ∧ s.current = 1 ∧ s.stage = .redo 0 ∧
      s.lockTbl = [{ lock := ⟨7, 1, 5⟩, lsn := 20, state := .got }] := by
  obtain ⟨s, run, hview⟩ := exists_reaches_any (State.step (ddlWal 7)) (.init (ddlWal 7))
    (replicate 5 .startup ++ replicate 2 .worker ++ [.startup])
    (fun s => s.current = 1 ∧ s.stage = .redo 0 ∧
      s.lockTbl = [{ lock := ⟨7, 1, 5⟩, lsn := 20, state := .got }]) (by decide +kernel)
  have hwait := ddl_records_wait (ddlWal 7) id (ddlWal_wellFormed (by decide))
  exact ⟨s, run, ⟨hwait.1 ddlWal_ownLocks s run, hwait.2 s run⟩, hview⟩

/-- Subtransaction 8 of transaction 7 takes a lock, and the next record of transaction 7 is applied
before the worker has looked at it. -/
theorem ddl_records_do_not_wait : ¬ ∀ (wal : Wal) (top : Nat → Nat), WellFormed wal →
    (∀ s, Reaches (State.step wal) (fun _ _ => True) (.init wal) s → LocksHeld wal top s) ∧
      ∀ s, Reaches (State.step wal) (fun _ _ => True) (.init wal) s → s.stage ≠ .panicked := by
  intro hall
  obtain ⟨s, run, hcur, hstage, htbl⟩ := exists_reaches_any (State.step (ddlWal 8))
    (.init (ddlWal 8)) (replicate 6 .startup)
    (fun s => s.current = 1 ∧ s.stage = .redo 0 ∧
      s.lockTbl = [{ lock := ⟨8, 1, 5⟩, lsn := 20, state := .idle }]) (by decide +kernel)
  have hheld := (hall (ddlWal 8) (fun xid => if xid = 8 then 7 else xid)
    (ddlWal_wellFormed (by decide))).1 s run 0 hstage ⟨8, 1, 5⟩
  rw [hcur] at hheld
  obtain ⟨e, he, _, hgot⟩ := hheld ⟨rfl, by decide, ⟨0, by decide, _, rfl, by simp⟩, rfl,
    fun k _ => ddlWal_not_ends 8 k 8⟩
  rw [htbl, mem_singleton] at he
  rw [he] at hgot
  cases hgot

/-! ### The gate opens -/

/-- How many steps the worker needs for its lock and for the queue. -/
def State.pendingSteps (s : State) : Nat :=
  3 * s.queue.length + match s.worker with
    | .idle => 0
    | .got _ => 1
    | .getting _ => 2

theorem pendingSteps_popHead (s : State) (hidle : s.worker = .idle) :
    s.popHead.pendingSteps ≤ 3 * (s.queue.length - 1) + 2 := by
  cases hqueue : s.queue with
  | nil => simp [State.popHead, State.pendingSteps, hqueue, hidle]
  | cons l queue =>
    simp only [State.popHead, hqueue]
    split <;> simp [State.pendingSteps, State.setState, hidle]

/-- While a lock is to be acquired, the worker gets on. -/
theorem pendingSteps_workerStep (h : Inv wal s) {e : Entry} (he : e ∈ s.lockTbl)
    (hpending : e.state.pending = true) : s.workerStep.pendingSteps < s.pendingSteps := by
  cases hw : s.worker with
  | idle =>
    have htbl := h.tbl
    rw [hw] at htbl
    have hmem : e.lock ∈ s.queue := by
      rw [htbl.queue]
      refine mem_map_of_mem (mem_filter.mpr ⟨he, ?_⟩)
      have := htbl.worker e he
      cases hs : e.state <;> simp_all [LockState.pending]
    have hpos := length_pos_of_mem hmem
    have hle : s.releaseFinished.queue.length ≤ s.queue.length := length_filter_le ..
    have hpop := pendingSteps_popHead s.releaseFinished hw
    have hsteps : s.pendingSteps = 3 * s.queue.length := by simp [State.pendingSteps, hw]
    simp only [State.workerStep, hw, State.tryToAcquireLock]
    omega
  | getting l | got l => simp [State.workerStep, State.pendingSteps, hw, State.setState]

/-- The record is let through after at most as many steps of the worker. -/
def State.Opens (wal : Wal) (s : State) : Prop :=
  ∃ n ≤ s.pendingSteps, ∃ t, exec (State.step wal) s (replicate n .worker ++ [.startup]) = some t ∧
    t.stage = .redo 0 ∧ t.current = s.current

theorem WaitInv.opens (h : WaitInv wal s) (hwf : WellFormed wal) (hgate : s.stage = .gate) :
    s.Opens wal := by
  induction hk : s.pendingSteps using Nat.strong_induction_on generalizing s with
  | _ k ih =>
    have hok := h.inv.gateOk (wal.record s.current).xid
    cases hs : s.xactIsReplaying (wal.record s.current).xid with
    | pass lockTblEmpty =>
      refine ⟨0, Nat.zero_le _, { s with lockTblEmpty, stage := .redo 0 }, ?_, rfl, rfl⟩
      simp [exec, State.step, State.startupStep, hgate, hs]
    | panic =>
      rw [hs] at hok
      obtain ⟨x, hx, hxid, hrun⟩ := hok
      exact absurd (h.gate.not_panic h.inv hwf hgate (h.atGate hgate) hx hxid hrun) id
    | replaying =>
      obtain ⟨e, he, hpending⟩ : ∃ e ∈ s.lockTbl, e.state.pending = true := by
        unfold State.xactIsReplaying at hs
        repeat' split at hs
        all_goals try cases hs
        next e hfind hpending => exact ⟨e, mem_of_find?_eq_some hfind, hpending⟩
      have hlt := pendingSteps_workerStep h.inv he hpending
      obtain ⟨hstage, hcurrent⟩ := workerStep_stage s
      have hstep : s.step wal .worker = some s.workerStep := rfl
      obtain ⟨n, hn, t, ht⟩ := ih _ (hk ▸ hlt) (h.step hwf hstep) (hstage.trans hgate) rfl
      exact ⟨n + 1, hn.trans_lt hlt, t, hcurrent ▸ ht⟩

/-- No record is stuck at the gate. -/
theorem gate_opens (wal : Wal) (hwf : WellFormed wal) (s : State)
    (run : Reaches (State.step wal) (fun _ _ => True) (.init wal) s) (hgate : s.stage = .gate) :
    s.Opens wal := by
  have h := run.invariant (WaitInv wal) ⟨.init, .init, by simp [AtGate, State.init]⟩
    fun _ _ _ h _ hs => h.step hwf hs
  exact h.opens hwf hgate

/-- The record of transaction 7 waits, and gets through. -/
theorem gate_opens_own : ∃ s : State, s.startupStep (ddlWal 7) = none ∧ s.Opens (ddlWal 7) := by
  obtain ⟨s, run, hgate, hnone⟩ := exists_reaches_any (State.step (ddlWal 7)) (.init (ddlWal 7))
    (replicate 5 .startup) (fun s => s.stage = .gate ∧ s.startupStep (ddlWal 7) = none)
    (by decide +kernel)
  exact ⟨s, hnone, gate_opens _ (ddlWal_wellFormed (by decide)) s run hgate⟩

end Polar.LockReplay
