import Polar.LockReplay.Invariant

/-!
# The steps of the replay

A lock of a record that has been replayed is in the lock table, unless its transaction has ended. A
lock that was skipped, and a transaction that was marked as not running, belong to a transaction
that has ended.
-/

namespace Polar.LockReplay

open List

/-- The record says that `xid` is not running any more. -/
def Body.Ends : Body → Nat → Prop
  | .xact xids _, xid => xid ∈ xids
  | .runningXacts oldxid prepared, xid => xid ∉ prepared ∧ xid < oldxid
  | _, _ => False

namespace Wal

variable {wal : Wal} {i j : Nat}

/-- Where record `i` begins. -/
def before (wal : Wal) : Nat → Nat
  | 0 => wal.begin
  | i + 1 => (wal.record i).stop

theorem before_lt (i : Nat) : wal.before i < (wal.record i).stop := by
  cases i with
  | zero => exact wal.begin_lt
  | succ i => exact wal.stop_lt i

theorem before_pos (i : Nat) : 0 < wal.before i := by
  induction i with
  | zero => exact wal.begin_pos
  | succ i ih => exact ih.trans (wal.before_lt i)

theorem stop_le_stop (h : i ≤ j) : (wal.record i).stop ≤ (wal.record j).stop := by
  induction h with
  | refl => exact le_rfl
  | step _ ih => exact ih.trans (wal.stop_lt _).le

/-- A record that ends before another one begins comes before it. -/
theorem lt_of_stop_le (h : (wal.record i).stop ≤ wal.before j) : i < j := by
  by_contra hle
  have hstop : (wal.record j).stop ≤ (wal.record i).stop := stop_le_stop (Nat.le_of_not_lt hle)
  exact absurd (wal.before_lt j) (Nat.not_lt.mpr (hstop.trans h))

end Wal

namespace State

variable (wal : Wal) (s : State)

/-- The number of records whose replay has begun. -/
def begun : Nat :=
  match s.stage with
  | .redo _ | .release _ => s.current + 1
  | .idle | .gate | .panicked => s.current

/-- How far the records go whose replay has begun. -/
def replayEnd : Nat :=
  match s.stage with
  | .redo _ | .release _ => (wal.record s.current).stop
  | .idle | .gate | .panicked => s.lastReplayed

/-- A record whose replay has begun ended the transaction. -/
def Ended (xid : Nat) : Prop := xid = 0 ∨ ∃ k < s.begun, (wal.record k).body.Ends xid

/-- The startup process has been at lock `l` of record `i`. -/
def Logged (i : Nat) (l : Lock) : Prop :=
  ∃ locks, (wal.record i).body = .locks locks ∧
    (i < s.current ∧ l ∈ locks ∨ ∃ k, i = s.current ∧ s.stage = .redo k ∧ l ∈ locks.take k)

variable {wal s}

theorem Ended.mono {t : State} {xid : Nat} (h : s.Ended wal xid) (hle : s.begun ≤ t.begun) :
    t.Ended wal xid := by
  rcases h with rfl | ⟨k, hk, hends⟩
  · exact .inl rfl
  · exact .inr ⟨k, hk.trans_le hle, hends⟩

end State

/-- What every run keeps of the tables. -/
structure Inv (wal : Wal) (s : State) : Prop where
  tbl : TblOk s.lockTbl s.queue s.worker s.lsn
  xact : XactOk s.lockTbl s.xactTbl
  shortcut : s.lockTblEmpty = true → s.xactTbl = []
  lastReplayed : s.lastReplayed = wal.before s.current
  bound : ∀ e ∈ s.lockTbl, e.lsn ≤ s.replayEnd wal
  lsnBound : s.lsn ≤ s.replayEnd wal
  clog : ∀ xid ∈ s.clog, s.Ended wal xid
  skip : ∀ e ∈ s.lockTbl, e.state = .skip → s.Ended wal e.lock.xid
  finished : ∀ x ∈ s.xactTbl, x.running = false → s.Ended wal x.xid
  logged : ∀ i l, s.Logged wal i l →
    (∃ e ∈ s.lockTbl, e.lock = l ∧ e.lsn ≤ (wal.record i).stop) ∨ s.Ended wal l.xid

namespace Inv

variable {wal : Wal} {s t : State}

theorem init : Inv wal (.init wal) where
  tbl := .init
  xact := .init
  shortcut _ := rfl
  lastReplayed := rfl
  bound := by simp [State.init]
  lsnBound := Nat.zero_le _
  clog := by simp [State.init]
  skip := by simp [State.init]
  finished := by simp [State.init]
  logged := by simp [State.init, State.Logged]

/-- The startup process moves on, and leaves the tables alone. -/
theorem setStage (h : Inv wal s) {current lastReplayed : Nat} {stage : Stage} {lockTblEmpty : Bool}
    (hempty : lockTblEmpty = true → s.xactTbl = []) (hlast : lastReplayed = wal.before current)
    (hend : s.replayEnd wal ≤ State.replayEnd wal { s with current, stage, lastReplayed })
    (hbegun : s.begun ≤ State.begun { s with current, stage })
    (hlogged : ∀ i l, State.Logged wal { s with current, stage } i l → s.Logged wal i l) :
    Inv wal { s with current, stage, lastReplayed, lockTblEmpty } where
  tbl := h.tbl
  xact := h.xact
  shortcut := hempty
  lastReplayed := hlast
  bound e he := (h.bound e he).trans hend
  lsnBound := h.lsnBound.trans hend
  clog xid hxid := (h.clog xid hxid).mono hbegun
  skip e he hs := (h.skip e he hs).mono hbegun
  finished x hx hr := (h.finished x hx hr).mono hbegun
  logged i l hl := (h.logged i l (hlogged i l hl)).imp_right (·.mono hbegun)

theorem beginRedo (h : Inv wal s) (hstage : s.stage = .idle ∨ s.stage = .gate) {lockTblEmpty : Bool}
    (hempty : lockTblEmpty = true → s.xactTbl = []) :
    Inv wal { s with lockTblEmpty, stage := .redo 0 } := by
  apply h.setStage hempty h.lastReplayed
  · have hlt : s.lastReplayed ≤ (wal.record s.current).stop := h.lastReplayed ▸ (wal.before_lt _).le
    rcases hstage with hs | hs <;> simpa [State.replayEnd, hs] using hlt
  · rcases hstage with hs | hs <;> simp [State.begun, hs]
  · rintro i l ⟨locks, hbody, hmem | ⟨k, _, hk, hmem⟩⟩
    · exact ⟨locks, hbody, .inl hmem⟩
    · obtain rfl : 0 = k := Stage.redo.inj hk
      simp at hmem

variable {k : Nat}

theorem advance (h : Inv wal s) (hstage : s.stage = .redo k ∨ s.stage = .release k)
    (hlocks : ∀ locks, (wal.record s.current).body = .locks locks →
      s.stage = .redo k ∧ locks[k]? = none) : Inv wal (s.advance wal) := by
  apply h.setStage h.shortcut rfl
  · rcases hstage with hs | hs <;> simp [State.replayEnd, hs, Wal.before]
  · rcases hstage with hs | hs <;> simp [State.begun, hs]
  · rintro i l ⟨locks, hbody, ⟨hlt, hmem⟩ | ⟨_, _, hk, _⟩⟩
    · rcases Nat.lt_succ_iff_lt_or_eq.mp hlt with hlt | rfl
      · exact ⟨locks, hbody, .inl ⟨hlt, hmem⟩⟩
      · obtain ⟨hs, hnone⟩ := hlocks locks hbody
        refine ⟨locks, hbody, .inr ⟨k, rfl, hs, ?_⟩⟩
        rwa [take_of_length_le (getElem?_eq_none_iff.mp hnone)]
    · cases hk

theorem markFinished (h : Inv wal s) {p : Nat → Bool} (hp : ∀ xid, p xid = true → s.Ended wal xid) :
    Inv wal (s.markFinished p) where
  tbl := h.tbl
  xact := h.xact.mark p
  shortcut he := by simp [State.markFinished, h.shortcut he]
  lastReplayed := h.lastReplayed
  bound := h.bound
  lsnBound := h.lsnBound
  clog := h.clog
  skip := h.skip
  finished y hy hr := by
    obtain ⟨x, hx, rfl⟩ := mem_map.mp hy
    by_cases hpx : p x.xid = true
    · rw [if_pos hpx]
      exact hp _ hpx
    · rw [if_neg hpx] at hr ⊢
      exact h.finished x hx hr
  logged := h.logged

theorem current_ended (hstage : s.begun = s.current + 1) {xid : Nat}
    (hends : (wal.record s.current).body.Ends xid) : s.Ended wal xid :=
  .inr ⟨s.current, by rw [hstage]; exact Nat.lt_succ_self _, hends⟩

theorem begun_redo (hstage : s.stage = .redo k) : s.begun = s.current + 1 := by
  simp [State.begun, hstage]

theorem setClog (h : Inv wal s) {xid : Nat} (hxid : s.Ended wal xid) :
    Inv wal { s with clog := xid :: s.clog } :=
  { h with clog := forall_mem_cons.mpr ⟨hxid, h.clog⟩ }

/-- The next step within a record, with nothing logged. -/
theorem nextStage (h : Inv wal s) {stage : Stage} (hsame : s.begun = s.current + 1)
    (hstage : State.begun { s with stage } = s.current + 1)
    (hbody : ∀ locks, (wal.record s.current).body ≠ .locks locks) : Inv wal { s with stage } := by
  have hend : ∀ u : State, u.begun = u.current + 1 →
      u.replayEnd wal = (wal.record u.current).stop := by
    intro u hu
    unfold State.begun at hu
    unfold State.replayEnd
    split at hu <;> simp_all
  apply h.setStage h.shortcut h.lastReplayed
  · rw [hend s hsame]
    exact (hend { s with stage } hstage).ge
  · rw [hsame]
    exact hstage.ge
  · rintro i l ⟨locks, hb, hmem | ⟨_, rfl, _, _⟩⟩
    · exact ⟨locks, hb, .inl hmem⟩
    · exact absurd hb (hbody locks)

variable {l : Lock}

theorem enterXact_found {x : Xact} (hx : x ∈ s.xactTbl)
    (hxid : x.xid = l.xid) : s.enterXact l = s.xactTbl.map fun x =>
      if x.xid = l.xid then { x with locks := x.locks ++ [l], lastLock := l } else x := by
  have hfind : (s.findXact l.xid).isSome := find?_isSome.mpr ⟨x, hx, by simpa using hxid⟩
  obtain ⟨y, hy⟩ := Option.isSome_iff_exists.mp hfind
  simp only [State.enterXact, hy]

theorem enterXact_new (hnone : ∀ x ∈ s.xactTbl, x.xid ≠ l.xid) :
    s.enterXact l = s.xactTbl ++ [{ xid := l.xid, running := true, locks := [l], lastLock := l }] := by
  have hfind : s.findXact l.xid = none := find?_eq_none.mpr fun x hx => by simpa using hnone x hx
  simp only [State.enterXact, hfind]

/-- The transactions that are not running were so before a lock is added. -/
theorem enterXact_running {y : Xact} (hy : y ∈ s.enterXact l) (hrun : y.running = false) :
    ∃ x ∈ s.xactTbl, x.xid = y.xid ∧ x.running = false := by
  unfold State.enterXact at hy
  split at hy
  · obtain ⟨x, hx, rfl⟩ := mem_map.mp hy
    by_cases hxid : x.xid = l.xid
    · rw [if_pos hxid] at hrun ⊢
      exact ⟨x, hx, rfl, hrun⟩
    · rw [if_neg hxid] at hrun ⊢
      exact ⟨x, hx, rfl, hrun⟩
  · rcases mem_append.mp hy with hy | hy
    · exact ⟨y, hy, rfl, hrun⟩
    · rw [mem_singleton.mp hy] at hrun
      cases hrun

theorem tables_add {l : Lock} {lsn lastLsn : Nat} (htbl : TblOk s.lockTbl s.queue s.worker s.lsn)
    (hxact : XactOk s.lockTbl s.xactTbl) (hfind : s.findLock l = none)
    (hbound : ∀ a ∈ s.lockTbl, a.lsn ≤ lsn) (hle : s.lsn ≤ lsn) (hpos : 0 < lastLsn)
    (hlast : lastLsn ≤ lsn) :
    TblOk (s.lockTbl ++ [⟨l, lsn, .idle⟩]) (s.queue ++ [l]) s.worker
        (if s.lsn = 0 then lastLsn else s.lsn) ∧
      XactOk (s.lockTbl ++ [⟨l, lsn, .idle⟩]) (s.enterXact l) ∧
      (∀ a ∈ s.lockTbl ++ [⟨l, lsn, .idle⟩], a.lsn ≤ lsn) ∧
      (if s.lsn = 0 then lastLsn else s.lsn) ≤ lsn := by
  have hnew : ∀ a ∈ s.lockTbl, a.lock ≠ l := fun a ha => by
    simpa using find?_eq_none.mp hfind a ha
  have hlsn : 0 < (if s.lsn = 0 then lastLsn else s.lsn) ∧
      (if s.lsn = 0 then lastLsn else s.lsn) ≤ lsn := by
    split
    · exact ⟨hpos, hlast⟩
    · next hne => exact ⟨Nat.pos_of_ne_zero hne, hle⟩
  exact ⟨htbl.add hnew hbound hlsn.2 hlsn.1 fun hne => if_neg hne, hxact.add ⟨l, lsn, .idle⟩
    (fun x hx hxid => enterXact_found hx hxid) fun hnone => enterXact_new hnone,
    forall_mem_append.mpr ⟨hbound, forall_mem_singleton.mpr le_rfl⟩, hlsn.2⟩

/-- A lock of the record is handed to the worker. -/
theorem addAsyncLock (h : Inv wal s) {locks : List Lock}
    (hstage : s.stage = .redo k) (hbody : (wal.record s.current).body = .locks locks)
    (hl : locks[k]? = some l) :
    Inv wal { s.addAsyncLock l (wal.record s.current).stop s.lastReplayed with
      stage := .redo (k + 1) } := by
  have hend : s.replayEnd wal = (wal.record s.current).stop := by simp [State.replayEnd, hstage]
  have hstop : ∀ a ∈ s.lockTbl, a.lsn ≤ (wal.record s.current).stop := fun a ha =>
    (h.bound a ha).trans_eq hend
  have hle : s.lsn ≤ (wal.record s.current).stop := h.lsnBound.trans_eq hend
  have hended : ∀ {xid}, s.Ended wal xid → State.Ended wal { s with stage := .redo (k + 1) } xid :=
    fun hx => hx.mono (by simp [State.begun, hstage])
  -- the locks that the startup process has been at are the earlier ones and `l`
  have hsplit : ∀ i m, (∃ locks, (wal.record i).body = .locks locks ∧ (i < s.current ∧ m ∈ locks ∨
      i = s.current ∧ m ∈ locks.take (k + 1))) → s.Logged wal i m ∨ i = s.current ∧ m = l := by
    rintro i m ⟨ls, hb, hmem | ⟨rfl, hmem⟩⟩
    · exact .inl ⟨ls, hb, .inl hmem⟩
    · obtain rfl : locks = ls := Body.locks.inj (hbody.symm.trans hb)
      rw [take_add_one, hl] at hmem
      rcases mem_append.mp hmem with hmem | hmem
      · exact .inl ⟨locks, hb, .inr ⟨k, rfl, hstage, hmem⟩⟩
      · exact .inr ⟨rfl, by simpa using hmem⟩
  have hcases : ∀ (u : State), u.current = s.current → ∀ i m,
      State.Logged wal { u with stage := .redo (k + 1) } i m →
        s.Logged wal i m ∨ i = s.current ∧ m = l := by
    rintro u hu i m ⟨ls, hb, hmem | ⟨j, hi, hj, hmem⟩⟩
    · exact hsplit i m ⟨ls, hb, .inl (hu ▸ hmem)⟩
    · obtain rfl : k + 1 = j := Stage.redo.inj hj
      exact hsplit i m ⟨ls, hb, .inr ⟨hu ▸ hi, hmem⟩⟩
  unfold State.addAsyncLock
  cases hfind : s.findLock l with
  | some e =>
    have he : e ∈ s.lockTbl := mem_of_find?_eq_some hfind
    have hlock : e.lock = l := by simpa using find?_some hfind
    refine ⟨h.tbl, h.xact, h.shortcut, h.lastReplayed, hstop, hle,
      fun xid hx => hended (h.clog xid hx),
      fun a ha hs => hended (h.skip a ha hs), fun x hx hr => hended (h.finished x hx hr), ?_⟩
    intro i m hm
    rcases hcases s rfl i m hm with hm | ⟨rfl, rfl⟩
    · exact (h.logged i m hm).imp_right hended
    · exact .inl ⟨e, he, hlock, hstop e he⟩
  | none =>
    obtain ⟨htbl, hxact, hbound, hlsn⟩ := tables_add h.tbl h.xact hfind hstop hle
      (h.lastReplayed ▸ wal.before_pos _) (h.lastReplayed ▸ (wal.before_lt _).le)
    refine ⟨htbl, hxact, by simp, h.lastReplayed, hbound, hlsn, fun xid hx => hended (h.clog xid hx),
      ?_, ?_, ?_⟩
    · exact forall_mem_append.mpr ⟨fun a ha hs => hended (h.skip a ha hs),
        forall_mem_singleton.mpr (by simp)⟩
    · intro y hy hr
      obtain ⟨x, hx, hxid, hrun⟩ := enterXact_running hy hr
      exact hxid ▸ hended (h.finished x hx hrun)
    · intro i m hm
      rcases hcases _ rfl i m hm with hm | ⟨rfl, rfl⟩
      · rcases h.logged i m hm with ⟨a, ha, hlock, hle⟩ | hx
        · exact .inl ⟨a, mem_append_left _ ha, hlock, hle⟩
        · exact .inr (hended hx)
      · exact .inl ⟨_, mem_append_right _ (mem_singleton.mpr rfl), rfl, le_rfl⟩

theorem redoStep (h : Inv wal s) (hstage : s.stage = .redo k) : Inv wal (s.redoStep wal k) := by
  have hbegun := begun_redo hstage
  cases hbody : (wal.record s.current).body with
  | locks locks =>
    cases hl : locks[k]? with
    | some l =>
      simp only [State.redoStep, hbody, hl]
      exact h.addAsyncLock hstage hbody hl
    | none =>
      simp only [State.redoStep, hbody, hl]
      refine h.advance (.inl hstage) fun ls hls => ⟨hstage, ?_⟩
      rwa [← Body.locks.inj (hbody.symm.trans hls)]
  | xact xids hasAeLocks =>
    have hnot : ∀ locks, (wal.record s.current).body ≠ .locks locks := by simp [hbody]
    cases hx : xids[k]? with
    | some xid =>
      have hended : s.Ended wal xid :=
        current_ended hbegun (by rw [hbody]; exact mem_of_getElem? hx)
      simp only [State.redoStep, hbody, hx]
      exact (h.setClog hended).nextStage hbegun rfl hnot
    | none =>
      simp only [State.redoStep, hbody, hx]
      split
      · exact h.nextStage hbegun rfl hnot
      · exact h.advance (.inl hstage) fun ls hls => absurd hls (hnot ls)
  | runningXacts oldxid prepared =>
    have hmark : Inv wal (s.releaseOldLocks oldxid prepared) := h.markFinished fun xid hp =>
      current_ended hbegun
        (by rw [hbody]; exact (of_decide_eq_true hp : xid ∉ prepared ∧ xid < oldxid))
    simp only [State.redoStep, hbody]
    exact hmark.advance (.inl hstage) fun ls hls => absurd (hbody.symm.trans hls) (by simp)
  | other =>
    simp only [State.redoStep, hbody]
    exact h.advance (.inl hstage) fun ls hls => absurd (hbody.symm.trans hls) (by simp)

/-- What it takes to pass the gate, and to panic there. -/
def GateOk (s : State) (xid : Nat) : State.Gate → Prop
  | .replaying => True
  | .pass lockTblEmpty => (lockTblEmpty = true → s.xactTbl = []) ∧
      ∀ e ∈ s.lockTbl, e.lock.xid = xid → e.state.pending = false
  | .panic => ∃ x ∈ s.xactTbl, x.xid = xid ∧ x.running = false

section

variable (h : Inv wal s)
include h

theorem gateOk (xid : Nat) : GateOk s xid (s.xactIsReplaying xid) := by
  have hnil : s.xactTbl = [] → ∀ e ∈ s.lockTbl, e.lock.xid = xid → e.state.pending = false := by
    intro hnil e he _
    obtain ⟨x, hx, _⟩ := h.xact.entry e he
    rw [hnil] at hx
    cases hx
  unfold State.xactIsReplaying
  split
  · next hempty => exact ⟨fun _ => h.shortcut hempty, hnil (h.shortcut hempty)⟩
  split
  · next hempty => exact ⟨fun _ => hempty, hnil hempty⟩
  cases hfind : s.findXact xid with
  | none =>
    refine ⟨by simp, ?_⟩
    intro e he hxid
    obtain ⟨x, hx, hxe, _⟩ := h.xact.entry e he
    have := find?_eq_none.mp hfind x hx
    simp [hxe, hxid] at this
  | some x =>
    have hx : x ∈ s.xactTbl := mem_of_find?_eq_some hfind
    have hxid : x.xid = xid := by simpa using find?_some hfind
    simp only
    split
    · next hrun => exact ⟨x, hx, hxid, hrun⟩
    obtain ⟨pre, e, post, htbl, hlock, _, _⟩ := h.xact.last x hx
    have he : e ∈ s.lockTbl := htbl ▸ mem_append_right _ mem_cons_self
    have hlast : s.findLock x.lastLock = some e := hlock ▸ h.tbl.find_eq he
    rw [hlast]
    simp only
    split
    · trivial
    · next hdone =>
      refine ⟨by simp, ?_⟩
      intro a ha hax
      exact h.xact.done h.tbl hx he hlock (by simpa using hdone) ha (hax.trans hxid.symm)

/-- The startup process goes on. -/
theorem startupStep (hs : s.startupStep wal = some t) : Inv wal t := by
  cases hstage : s.stage with
  | idle =>
    simp only [State.startupStep, hstage] at hs
    split at hs <;> cases hs
    · exact h.beginRedo (.inl hstage) h.shortcut
    · apply h.setStage h.shortcut h.lastReplayed
      · simp [State.replayEnd, hstage]
      · simp [State.begun, hstage]
      · rintro i l ⟨locks, hbody, hmem | ⟨k, _, hk, _⟩⟩
        · exact ⟨locks, hbody, .inl hmem⟩
        · cases hk
  | gate =>
    have hgate := h.gateOk (wal.record s.current).xid
    simp only [State.startupStep, hstage] at hs
    split at hs <;> cases hs
    · next hpass =>
      rw [hpass] at hgate
      exact h.beginRedo (.inr hstage) hgate.1
    · apply h.setStage h.shortcut h.lastReplayed
      · simp [State.replayEnd, hstage]
      · simp [State.begun, hstage]
      · rintro i l ⟨locks, hbody, hmem | ⟨k, _, hk, _⟩⟩
        · exact ⟨locks, hbody, .inl hmem⟩
        · cases hk
  | redo k =>
    simp only [State.startupStep, hstage] at hs
    cases hs
    exact h.redoStep hstage
  | release k =>
    have hbegun : s.begun = s.current + 1 := by simp [State.begun, hstage]
    simp only [State.startupStep, hstage] at hs
    split at hs
    · next xids _ hbody =>
      have hnot : ∀ locks, (wal.record s.current).body ≠ .locks locks := by simp [hbody]
      split at hs <;> cases hs
      · next xid hx =>
        have hmark : Inv wal (s.releaseLocks xid) := h.markFinished fun y hy => by
          rw [of_decide_eq_true hy]
          exact current_ended hbegun (by rw [hbody]; exact mem_of_getElem? hx)
        exact hmark.nextStage hbegun rfl hnot
      · exact h.advance (.inr hstage) fun ls hls => absurd hls (hnot ls)
    · cases hs
  | panicked => simp [State.startupStep, hstage] at hs

theorem setState {l : Lock} {state : LockState} {queue : List Lock} {worker : Worker}
    {lsn : Nat} (htbl : TblOk (s.setState l state).lockTbl queue worker lsn)
    (hlsn : lsn ≤ s.replayEnd wal) (hskip : state = .skip → s.Ended wal l.xid) :
    Inv wal { s.setState l state with queue, worker, lsn } := by
  have hsame := TblOk.setState_same l state
  refine ⟨htbl, h.xact.mapTbl fun e => (hsame e).1, h.shortcut, h.lastReplayed, ?_, hlsn, h.clog, ?_,
    h.finished, ?_⟩
  · intro a ha
    obtain ⟨e, he, rfl⟩ := mem_map.mp ha
    rw [(hsame e).2]
    exact h.bound e he
  · intro a ha hs
    obtain ⟨e, he, rfl⟩ := mem_map.mp ha
    by_cases hl : e.lock = l
    · rw [if_pos hl] at hs ⊢
      exact hl ▸ hskip hs
    · rw [if_neg hl] at hs ⊢
      exact h.skip e he hs
  · intro i m hm
    rcases h.logged i m hm with ⟨e, he, hlock, hle⟩ | hx
    · exact .inl ⟨_, mem_map_of_mem he, (hsame e).1.trans hlock, (hsame e).2.trans_le hle⟩
    · exact .inr hx

/-- The worker releases the locks of the transactions that have ended. -/
theorem releaseFinished (hidle : s.worker = .idle) : Inv wal s.releaseFinished := by
  have htbl := h.tbl
  rw [hidle] at htbl
  refine ⟨?_, h.xact.release, ?_, h.lastReplayed, ?_, h.lsnBound, h.clog, ?_, ?_, ?_⟩
  · show TblOk _ _ s.worker s.lsn
    rw [hidle]
    exact htbl.filter fun l =>
      decide (l ∉ (s.xactTbl.filter fun x => !x.running).flatMap Xact.locks)
  · intro he
    simp [State.releaseFinished, h.shortcut he]
  · exact fun e he => h.bound e (mem_of_mem_filter he)
  · exact fun e he => h.skip e (mem_of_mem_filter he)
  · exact fun x hx => h.finished x (mem_of_mem_filter hx)
  · intro i l hl
    rcases h.logged i l hl with ⟨e, he, hlock, hle⟩ | hx
    · by_cases hgone : e.lock ∈ (s.xactTbl.filter fun x => !x.running).flatMap Xact.locks
      · -- the transaction of a lock that is removed has ended
        obtain ⟨x, hx, hmem⟩ := mem_flatMap.mp hgone
        obtain ⟨hx, hdead⟩ := mem_filter.mp hx
        have hxid : x.xid = l.xid := by rw [← h.xact.locks x hx _ hmem, hlock]
        exact .inr (hxid ▸ h.finished x hx (by simpa using hdead))
      · exact .inl ⟨e, mem_filter.mpr ⟨he, decide_eq_true hgone⟩, hlock, hle⟩
    · exact .inr hx

theorem popHead (hidle : s.worker = .idle) : Inv wal s.popHead := by
  have htbl := h.tbl
  rw [hidle] at htbl
  rcases htbl.popHead_cases with ⟨hq, hpop⟩ | ⟨e, queue, he, -, ⟨hskip, hpop, hok⟩ | ⟨hpop, hok⟩⟩
  · rw [hpop]
    rw [hq] at htbl
    exact { h with tbl := by rw [hidle, hq]; exact htbl.clear, lsnBound := Nat.zero_le _ }
  · rw [hpop]
    exact h.setState (hidle ▸ hok) (h.bound e he) fun _ => hskip.elim .inl (h.clog _)
  · rw [hpop]
    exact h.setState hok h.lsnBound nofun

theorem tryToAcquireLock (hidle : s.worker = .idle) : Inv wal s.tryToAcquireLock :=
  (h.releaseFinished hidle).popHead hidle

theorem workerStep : Inv wal s.workerStep := by
  unfold State.workerStep
  have htbl := h.tbl
  cases hw : s.worker with
  | idle => exact h.tryToAcquireLock hw
  | getting l =>
    rw [hw] at htbl
    obtain ⟨_, _, _, _, hok⟩ := htbl.getting_setState
    exact h.setState hok h.lsnBound nofun
  | got l =>
    rw [hw] at htbl
    obtain ⟨e, he, rfl, hstate, hlsn⟩ := htbl.got_lsn
    simp only [hlsn]
    exact { h with tbl := htbl.publish he hstate, lsnBound := h.bound e he }

theorem setReply (applyPtr : Option Nat) (reports : List Nat) :
    Inv wal { s with applyPtr, reports } :=
  { h with }

theorem step {op : Op} (hs : s.step wal op = some t) : Inv wal t := by
  cases op with
  | startup => exact h.startupStep hs
  | worker =>
    cases hs
    exact h.workerStep
  | readApply =>
    cases hs
    exact h.setReply _ _
  | reply =>
    obtain ⟨a, _, rfl⟩ := Option.map_eq_some_iff.mp hs
    exact h.setReply _ _

end

end Inv

end Polar.LockReplay
