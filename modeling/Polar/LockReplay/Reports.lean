import Polar.LockReplay.Step

/-!
# The lock position that is reported to the primary

The reported positions never go back. If no record adds two new locks, a lock whose record ends at
or before a reported position has been acquired, or its transaction has ended and the worker is done
with it.
-/

namespace Polar.LockReplay

open State (redoStep)

open List

variable {wal : Wal} {s t : State}

namespace State

/-- The position that a reply would report now. -/
def frontier (s : State) : Nat := if s.lsn = 0 then s.lastReplayed else min s.lsn s.lastReplayed

theorem frontier_le (s : State) : s.frontier ≤ s.lastReplayed := by
  unfold frontier
  split
  · exact le_rfl
  · exact min_le_right _ _

end State

/-- How the startup process and the worker move the two positions. -/
structure Moves (s t : State) : Prop where
  applied : s.lastReplayed ≤ t.lastReplayed
  lsn : t.lsn = 0 ∨ (s.lsn ≠ 0 ∧ s.lsn ≤ t.lsn) ∨ (s.lsn = 0 ∧ t.lsn = s.lastReplayed)
  applyPtr : t.applyPtr = s.applyPtr
  reports : t.reports = s.reports

namespace Moves

theorem of_lsn_eq (happlied : s.lastReplayed ≤ t.lastReplayed) (hlsn : t.lsn = s.lsn)
    (happly : t.applyPtr = s.applyPtr) (hreports : t.reports = s.reports) : Moves s t := by
  refine ⟨happlied, ?_, happly, hreports⟩
  by_cases hzero : s.lsn = 0
  · exact .inl (hlsn.trans hzero)
  · exact .inr (.inl ⟨hzero, hlsn.ge⟩)

theorem frontier (h : Moves s t) : s.frontier ≤ t.frontier := by
  have happlied := h.applied
  have hlsn := h.lsn
  unfold State.frontier
  split <;> split <;> omega

variable (h : Inv wal s)
include h

theorem of_redoStep (k : Nat) : Moves s (s.redoStep wal k) := by
  have hadvance : ∀ u : State, u.current = s.current → u.lsn = s.lsn → u.applyPtr = s.applyPtr →
      u.reports = s.reports → Moves s (u.advance wal) := by
    intro u hcur hlsn happly hreports
    refine of_lsn_eq ?_ hlsn happly hreports
    show s.lastReplayed ≤ (wal.record u.current).stop
    rw [hcur, h.lastReplayed]
    exact (wal.before_lt _).le
  cases hbody : (wal.record s.current).body with
  | locks locks =>
    cases hl : locks[k]? with
    | some l =>
      simp only [redoStep, hbody, hl, State.addAsyncLock]
      cases s.findLock l with
      | some e => exact of_lsn_eq le_rfl rfl rfl rfl
      | none =>
        refine ⟨le_rfl, ?_, rfl, rfl⟩
        by_cases hzero : s.lsn = 0
        · exact .inr (.inr ⟨hzero, if_pos hzero⟩)
        · exact .inr (.inl ⟨hzero, (if_neg hzero).ge⟩)
    | none =>
      simp only [redoStep, hbody, hl]
      exact hadvance s rfl rfl rfl rfl
  | xact xids hasAeLocks =>
    cases hx : xids[k]? with
    | some xid =>
      simp only [redoStep, hbody, hx]
      exact of_lsn_eq le_rfl rfl rfl rfl
    | none =>
      simp only [redoStep, hbody, hx]
      split
      · exact of_lsn_eq le_rfl rfl rfl rfl
      · exact hadvance s rfl rfl rfl rfl
  | runningXacts oldxid prepared =>
    simp only [redoStep, hbody]
    exact hadvance _ rfl rfl rfl rfl
  | other =>
    simp only [redoStep, hbody]
    exact hadvance s rfl rfl rfl rfl

theorem of_startupStep (hs : s.startupStep wal = some t) : Moves s t := by
  cases hstage : s.stage with
  | idle | gate =>
    simp only [State.startupStep, hstage] at hs
    split at hs <;> cases hs <;> exact of_lsn_eq le_rfl rfl rfl rfl
  | redo k =>
    simp only [State.startupStep, hstage] at hs
    cases hs
    exact of_redoStep h k
  | release k =>
    simp only [State.startupStep, hstage] at hs
    split at hs
    · split at hs <;> cases hs
      · exact of_lsn_eq le_rfl rfl rfl rfl
      · exact of_lsn_eq (h.lastReplayed ▸ (wal.before_lt _).le) rfl rfl rfl
    · cases hs
  | panicked => simp [State.startupStep, hstage] at hs

theorem of_popHead (hidle : s.worker = .idle) : Moves s s.popHead := by
  have htbl := h.tbl
  rw [hidle] at htbl
  rcases htbl.popHead_cases with ⟨_, hpop⟩ | ⟨e, _, he, hstate, ⟨_, hpop, _⟩ | ⟨hpop, _⟩⟩
  · rw [hpop]
    exact ⟨le_rfl, .inl rfl, rfl, rfl⟩
  · obtain ⟨hpos, hle⟩ := htbl.lsn e he (.inl (by rw [hstate]; rfl))
    rw [hpop]
    exact ⟨le_rfl, .inr (.inl ⟨Nat.ne_of_gt hpos, hle⟩), rfl, rfl⟩
  · rw [hpop]
    exact of_lsn_eq le_rfl rfl rfl rfl

theorem of_workerStep : Moves s s.workerStep := by
  cases hw : s.worker with
  | idle =>
    simp only [State.workerStep, hw]
    have m := of_popHead (h.releaseFinished hw) hw
    exact { m with }
  | getting l =>
    simp only [State.workerStep, hw]
    exact of_lsn_eq le_rfl rfl rfl rfl
  | got l =>
    have htbl := h.tbl
    rw [hw] at htbl
    obtain ⟨e, he, rfl, _, hlsn⟩ := htbl.got_lsn
    obtain ⟨hpos, hle⟩ := htbl.lsn e he (.inr rfl)
    simp only [State.workerStep, hw, hlsn]
    exact ⟨le_rfl, .inr (.inl ⟨Nat.ne_of_gt hpos, hle⟩), rfl, rfl⟩

end Moves

/-- The reports never go back, nor past the frontier. -/
structure ReportInv (s : State) : Prop where
  sorted : s.reports.Pairwise (· ≥ ·)
  le : ∀ r ∈ s.reports, r ≤ s.frontier
  applyPtr : ∀ a ∈ s.applyPtr, a ≤ s.lastReplayed ∧ ∀ r ∈ s.reports, r ≤ a

namespace ReportInv

theorem init : ReportInv (.init wal) :=
  ⟨.nil, by simp [State.init], by simp [State.init]⟩

theorem moves (h : ReportInv s) (m : Moves s t) : ReportInv t where
  sorted := m.reports ▸ h.sorted
  le r hr := (h.le r (m.reports ▸ hr)).trans m.frontier
  applyPtr a ha := by
    obtain ⟨hle, hall⟩ := h.applyPtr a (m.applyPtr ▸ ha)
    exact ⟨hle.trans m.applied, m.reports ▸ hall⟩

/-- A reply is not behind the last one, and not ahead of the next one. -/
theorem reply (h : ReportInv s) {a : Nat} (ha : s.applyPtr = some a) :
    ReportInv { s with applyPtr := none, reports := s.lockPtr a :: s.reports } := by
  obtain ⟨hle, hall⟩ := h.applyPtr a ha
  refine ⟨pairwise_cons.mpr ⟨?_, h.sorted⟩, forall_mem_cons.mpr ⟨?_, h.le⟩, by simp⟩
  · intro r hr
    have hra := hall r hr
    have hrf := h.le r hr
    unfold State.frontier at hrf
    unfold State.lockPtr
    split
    · exact hra
    · split at hrf <;> omega
  · show s.lockPtr a ≤ s.frontier
    unfold State.lockPtr State.frontier
    split <;> split <;> omega

theorem step (h : ReportInv s) (hinv : Inv wal s) {op : Op} (hs : s.step wal op = some t) :
    ReportInv t := by
  cases op with
  | startup => exact h.moves (.of_startupStep hinv hs)
  | worker =>
    cases hs
    exact h.moves (.of_workerStep hinv)
  | readApply =>
    cases hs
    refine ⟨h.sorted, h.le, ?_⟩
    rintro a ⟨⟩
    exact ⟨le_rfl, fun r hr => (h.le r hr).trans s.frontier_le⟩
  | reply =>
    obtain ⟨a, ha, rfl⟩ := Option.map_eq_some_iff.mp hs
    exact h.reply ha

end ReportInv

/-- The record adds no second lock that is new. -/
def OneLock (wal : Wal) (s : State) : Op → Prop
  | .startup => ∀ k, s.stage = .redo k → ∀ locks, (wal.record s.current).body = .locks locks →
      ∀ l ∈ locks[k]?, s.findLock l = none → ∀ e ∈ s.lockTbl, e.lsn ≠ (wal.record s.current).stop
  | _ => True

/-- The worker's position tells the locks that it is done with from the others. -/
structure Strict (wal : Wal) (s : State) : Prop where
  distinct : s.lockTbl.Pairwise (·.lsn < ·.lsn)
  ahead : ∀ e ∈ s.lockTbl, e.state.pending = true → s.lsn < e.lsn
  recent : ∀ e ∈ s.lockTbl, e.lsn ≤ s.lastReplayed ∨ e.lsn = (wal.record s.current).stop
  source : s.lsn ≤ s.lastReplayed ∨
    s.lsn = (wal.record s.current).stop ∧ ∃ e ∈ s.lockTbl, e.lsn = s.lsn

namespace Strict

theorem init : Strict wal (.init wal) :=
  ⟨.nil, by simp [State.init], by simp [State.init], .inl (Nat.zero_le _)⟩

variable (h : Strict wal s)
include h

theorem setStage (hlock : t.lockTbl = s.lockTbl) (hlsn : t.lsn = s.lsn)
    (hlast : t.lastReplayed = s.lastReplayed) (hcur : t.current = s.current) : Strict wal t :=
  ⟨hlock ▸ h.distinct, by rw [hlock, hlsn]; exact h.ahead, by rw [hlock, hlast, hcur]; exact h.recent,
    by rw [hlock, hlast, hcur, hlsn]; exact h.source⟩

theorem advance (hinv : Inv wal s) : Strict wal (s.advance wal) := by
  have hlt : s.lastReplayed ≤ (wal.record s.current).stop := hinv.lastReplayed ▸ (wal.before_lt _).le
  refine ⟨h.distinct, h.ahead, fun e he => .inl ?_, .inl ?_⟩
  · exact (h.recent e he).elim (·.trans hlt) (·.le)
  · exact h.source.elim (·.trans hlt) (·.1.le)

/-- With one lock a record, the LSNs of the table are distinct. -/
theorem addAsyncLock (hinv : Inv wal s) {k : Nat} {l : Lock} {locks : List Lock}
    (hstage : s.stage = .redo k) (hbody : (wal.record s.current).body = .locks locks)
    (hl : locks[k]? = some l) (hok : OneLock wal s .startup) :
    Strict wal { s.addAsyncLock l (wal.record s.current).stop s.lastReplayed with
      stage := .redo (k + 1) } := by
  have hlast : s.lastReplayed < (wal.record s.current).stop := hinv.lastReplayed ▸ wal.before_lt _
  cases hfind : s.findLock l with
  | some e =>
    simp only [State.addAsyncLock, hfind]
    exact h.setStage rfl rfl rfl rfl
  | none =>
    have hnew : ∀ e ∈ s.lockTbl, e.lsn < (wal.record s.current).stop := by
      intro e he
      refine lt_of_le_of_ne ?_ (hok k hstage locks hbody l hl hfind e he)
      exact (h.recent e he).elim (·.trans hlast.le) (·.le)
    have hlsn : s.lsn < (wal.record s.current).stop := by
      rcases h.source with hle | ⟨_, e, he, heq⟩
      · exact hle.trans_lt hlast
      · exact heq ▸ hnew e he
    simp only [State.addAsyncLock, hfind]
    refine ⟨?_, ?_, ?_, ?_⟩
    · rw [pairwise_append]
      refine ⟨h.distinct, pairwise_singleton _ _, ?_⟩
      intro a ha b hb
      rw [mem_singleton.mp hb]
      exact hnew a ha
    · intro e he hpending
      rcases mem_append.mp he with he | he
      · have hpos := (hinv.tbl.lsn e he (.inl hpending)).1
        rw [if_neg (Nat.ne_of_gt hpos)]
        exact h.ahead e he hpending
      · rw [mem_singleton.mp he]
        split
        · exact hlast
        · exact hlsn
    · exact forall_mem_append.mpr ⟨h.recent, forall_mem_singleton.mpr (.inr rfl)⟩
    · by_cases hzero : s.lsn = 0
      · exact .inl (if_pos hzero).le
      · rw [if_neg hzero]
        rcases h.source with hle | ⟨heq, e, he, hsame⟩
        · exact .inl hle
        · exact .inr ⟨heq, e, mem_append_left _ he, hsame⟩

theorem startupStep (hinv : Inv wal s) (hok : OneLock wal s .startup)
    (hs : s.startupStep wal = some t) : Strict wal t := by
  cases hstage : s.stage with
  | idle | gate =>
    simp only [State.startupStep, hstage] at hs
    split at hs <;> cases hs <;> exact h.setStage rfl rfl rfl rfl
  | redo k =>
    simp only [State.startupStep, hstage] at hs
    cases hs
    cases hbody : (wal.record s.current).body with
    | locks locks =>
      cases hl : locks[k]? with
      | some l =>
        simp only [redoStep, hbody, hl]
        exact h.addAsyncLock hinv hstage hbody hl hok
      | none =>
        simp only [redoStep, hbody, hl]
        exact h.advance hinv
    | xact xids hasAeLocks =>
      cases hx : xids[k]? with
      | some xid =>
        simp only [redoStep, hbody, hx]
        exact h.setStage rfl rfl rfl rfl
      | none =>
        simp only [redoStep, hbody, hx]
        split
        · exact h.setStage rfl rfl rfl rfl
        · exact h.advance hinv
    | runningXacts oldxid prepared =>
      simp only [redoStep, hbody]
      have := h.advance hinv
      exact { this with }
    | other =>
      simp only [redoStep, hbody]
      exact h.advance hinv
  | release k =>
    simp only [State.startupStep, hstage] at hs
    split at hs
    · split at hs <;> cases hs
      · exact h.setStage rfl rfl rfl rfl
      · exact h.advance hinv
    · cases hs
  | panicked => simp [State.startupStep, hstage] at hs

omit h in
/-- The position of an entry that the worker is done with. -/
theorem ahead_of_source (hinv : Inv wal t) (hdistinct : t.lockTbl.Pairwise (·.lsn < ·.lsn))
    {a : Entry} (ha : a ∈ t.lockTbl) (hlsn : a.lsn = t.lsn) (hdone : a.state.pending = false) :
    ∀ e ∈ t.lockTbl, e.state.pending = true → t.lsn < e.lsn := by
  intro e he hpending
  have hle := (hinv.tbl.lsn e he (.inl hpending)).2
  rcases pairwise_mem hdistinct ha he with rfl | hlt | hlt
  · exact absurd (hpending.symm.trans hdone) (by decide)
  · exact hlsn ▸ hlt
  · exact absurd hle (Nat.not_le.mpr (hlsn ▸ hlt))

omit h in
theorem distinct_setState {u : State} (h : u.lockTbl.Pairwise (·.lsn < ·.lsn)) (l : Lock)
    (state : LockState) : (u.setState l state).lockTbl.Pairwise (·.lsn < ·.lsn) := by
  apply h.map
  intro a b hlt
  rwa [(TblOk.setState_same l state a).2, (TblOk.setState_same l state b).2]

/-- The worker takes the first lock of the queue. -/
theorem popHead (hinv : Inv wal s) (hidle : s.worker = .idle) :
    Strict wal s.releaseFinished.popHead := by
  have hr := hinv.releaseFinished hidle
  have hp := hr.popHead hidle
  have hsub : ∀ e ∈ s.releaseFinished.lockTbl, e ∈ s.lockTbl := fun e he => mem_of_mem_filter he
  have hdistinct : s.releaseFinished.lockTbl.Pairwise (·.lsn < ·.lsn) :=
    h.distinct.sublist filter_sublist
  have hrecent : ∀ e ∈ s.releaseFinished.lockTbl, e.lsn ≤ s.lastReplayed ∨
      e.lsn = (wal.record s.current).stop := fun e he => h.recent e (hsub e he)
  have hmap : ∀ l state, ∀ a ∈ (s.releaseFinished.setState l state).lockTbl,
      a.lsn ≤ s.lastReplayed ∨ a.lsn = (wal.record s.current).stop := by
    intro l state a ha
    obtain ⟨e, he, rfl⟩ := mem_map.mp ha
    rw [(TblOk.setState_same l state e).2]
    exact hrecent e he
  have htbl : TblOk s.releaseFinished.lockTbl s.releaseFinished.queue .idle s.releaseFinished.lsn :=
    hidle ▸ hr.tbl
  rcases htbl.popHead_cases with ⟨_, hpop⟩ | ⟨e, queue, he, hstate, ⟨_, hpop, _⟩ | ⟨hpop, _⟩⟩
  · rw [hpop] at hp ⊢
    refine ⟨hdistinct, ?_, hrecent, .inl (Nat.zero_le _)⟩
    intro e he hpending
    exact absurd (hp.tbl.lsn e he (.inl hpending)).1 (lt_irrefl 0)
  · rw [hpop] at hp ⊢
    have hmem : { e with state := .skip } ∈ (s.releaseFinished.setState e.lock .skip).lockTbl :=
      mem_map.mpr ⟨e, he, if_pos rfl⟩
    have hd := distinct_setState hdistinct e.lock .skip
    refine ⟨hd, ahead_of_source hp hd hmem rfl rfl, hmap _ _, ?_⟩
    exact (hrecent e he).imp_right fun heq => ⟨heq, _, hmem, rfl⟩
  · have hpending : e.state.pending = true := by rw [hstate]; rfl
    rw [hpop]
    refine ⟨distinct_setState hdistinct e.lock .getting, ?_, hmap _ _, ?_⟩
    · intro a ha hap
      obtain ⟨b, hb, rfl⟩ := mem_map.mp ha
      rw [(TblOk.setState_same e.lock .getting b).2]
      by_cases hbe : b.lock = e.lock
      · rw [htbl.eq_of_lock hb he hbe]
        exact h.ahead e (hsub e he) hpending
      · rw [if_neg hbe] at hap
        exact h.ahead b (hsub b hb) hap
    · -- the head of the queue is ahead, so the position is not at the current record
      rcases h.source with hle | ⟨hcur, _⟩
      · exact .inl hle
      · have hlt : s.lsn < e.lsn := h.ahead e (hsub e he) hpending
        rcases h.recent e (hsub e he) with hle | heq
        · exact .inl (hlt.le.trans hle)
        · exact absurd (heq ▸ hcur ▸ hlt) (lt_irrefl _)

theorem workerStep (hinv : Inv wal s) : Strict wal s.workerStep := by
  have hp := hinv.workerStep
  have htbl := hinv.tbl
  cases hw : s.worker with
  | idle =>
    simp only [State.workerStep, hw]
    exact h.popHead hinv hw
  | getting l =>
    simp only [State.workerStep, hw]
    refine ⟨distinct_setState h.distinct l .got, ?_, ?_, ?_⟩
    · intro a ha hpending
      obtain ⟨e, he, rfl⟩ := mem_map.mp ha
      by_cases hl : e.lock = l
      · rw [if_pos hl] at hpending
        cases hpending
      · rw [if_neg hl] at hpending ⊢
        exact h.ahead e he hpending
    · intro a ha
      obtain ⟨e, he, rfl⟩ := mem_map.mp ha
      rw [(TblOk.setState_same l .got e).2]
      exact h.recent e he
    · rcases h.source with hle | ⟨hcur, e, he, hlsn⟩
      · exact .inl hle
      · exact .inr ⟨hcur, _, mem_map_of_mem he, (TblOk.setState_same l .got e).2.trans hlsn⟩
  | got l =>
    rw [hw] at htbl
    obtain ⟨e, he, rfl, hstate, hlsn⟩ := htbl.got_lsn
    simp only [State.workerStep, hw, hlsn] at hp ⊢
    refine ⟨h.distinct, ?_, h.recent, ?_⟩
    · exact ahead_of_source hp h.distinct he rfl (by rw [hstate]; rfl)
    · exact (h.recent e he).imp_right fun heq => ⟨heq, e, he, rfl⟩

theorem step (hinv : Inv wal s) {op : Op} (hok : OneLock wal s op)
    (hs : s.step wal op = some t) : Strict wal t := by
  cases op with
  | startup => exact h.startupStep hinv hok hs
  | worker =>
    cases hs
    exact h.workerStep hinv
  | readApply =>
    cases hs
    exact h.setStage rfl rfl rfl rfl
  | reply =>
    obtain ⟨a, _, rfl⟩ := Option.map_eq_some_iff.mp hs
    exact h.setStage rfl rfl rfl rfl

end Strict

/-- Lock `l` of record `i` is acquired; or its transaction has ended, and it was skipped or is in
the lock table no more. -/
def State.Settled (wal : Wal) (s : State) (i : Nat) (l : Lock) : Prop :=
  (∃ e ∈ s.lockTbl, e.lock = l ∧ e.lsn ≤ (wal.record i).stop ∧ e.state = .got) ∨
    s.Ended wal l.xid ∧
      ∀ e ∈ s.lockTbl, e.lock = l → e.lsn ≤ (wal.record i).stop → e.state = .skip

/-- Every lock up to a reported position is settled. -/
def SafeReports (wal : Wal) (s : State) : Prop :=
  ∀ r ∈ s.reports, ∀ i locks, (wal.record i).body = .locks locks → (wal.record i).stop ≤ r →
    ∀ l ∈ locks, s.Settled wal i l

theorem Strict.safeReports (h : Strict wal s) (hinv : Inv wal s) (hreport : ReportInv s) :
    SafeReports wal s := by
  intro r hr i locks hbody hstop l hl
  have hfrontier : (wal.record i).stop ≤ s.frontier := hstop.trans (hreport.le r hr)
  have hlt : i < s.current :=
    Wal.lt_of_stop_le (hinv.lastReplayed ▸ hfrontier.trans s.frontier_le)
  -- an entry up to the reported position is behind the worker
  have hdone : ∀ e ∈ s.lockTbl, e.lsn ≤ (wal.record i).stop → e.state.pending = false := by
    intro e he hle
    by_contra hp
    have hpending : e.state.pending = true := by simpa using hp
    have hpos := (hinv.tbl.lsn e he (.inl hpending)).1
    have hahead := h.ahead e he hpending
    have hf := hle.trans hfrontier
    unfold State.frontier at hf
    rw [if_neg (Nat.ne_of_gt hpos)] at hf
    omega
  have hended : (∃ e ∈ s.lockTbl, e.lock = l ∧ e.lsn ≤ (wal.record i).stop ∧ e.state = .got) ∨
      ∀ e ∈ s.lockTbl, e.lock = l → e.lsn ≤ (wal.record i).stop → e.state = .skip := by
    by_cases hgot : ∃ e ∈ s.lockTbl, e.lock = l ∧ e.lsn ≤ (wal.record i).stop ∧ e.state = .got
    · exact .inl hgot
    · refine .inr fun e he hlock hle => ?_
      have hnot := hdone e he hle
      cases hstate : e.state with
      | idle | getting => simp [hstate, LockState.pending] at hnot
      | got => exact absurd ⟨e, he, hlock, hle, hstate⟩ hgot
      | skip => rfl
  rcases hended with hgot | hskip
  · exact .inl hgot
  · refine .inr ⟨?_, hskip⟩
    rcases hinv.logged i l ⟨locks, hbody, .inl ⟨hlt, hl⟩⟩ with ⟨e, he, hlock, hle⟩ | hx
    · exact hlock ▸ hinv.skip e he (hskip e he hlock hle)
    · exact hx

/-- In every run the reported positions do not go back; in every run in which no record adds two new
locks, the locks up to a reported position are settled. -/
theorem lock_reports_safe (wal : Wal) :
    (∀ s, Reaches (State.step wal) (OneLock wal) (.init wal) s → SafeReports wal s) ∧
      ∀ s, Reaches (State.step wal) (fun _ _ => True) (.init wal) s →
        s.reports.Pairwise (· ≥ ·) := by
  constructor
  · intro s run
    have h : Inv wal s ∧ ReportInv s ∧ Strict wal s :=
      run.invariant (fun s => Inv wal s ∧ ReportInv s ∧ Strict wal s) ⟨.init, .init, .init⟩
        fun _ _ _ h hok hs => ⟨h.1.step hs, h.2.1.step h.1 hs, h.2.2.step h.1 hok hs⟩
    exact h.2.2.safeReports h.1 h.2.1
  · intro s run
    have h : Inv wal s ∧ ReportInv s :=
      run.invariant (fun s => Inv wal s ∧ ReportInv s) ⟨.init, .init⟩
        fun _ _ _ h _ hs => ⟨h.1.step hs, h.2.step h.1 hs⟩
    exact h.2.sorted

/-- A WAL whose first record has the given locks, with records of ten bytes. -/
def locksWal (locks : List Lock) : Wal where
  record i := { stop := 10 * i + 20, xid := 0, body := if i = 0 then .locks locks else .other }
  begin := 10
  begin_pos := by decide
  begin_lt := by simp
  stop_lt _ := by dsimp only; omega

instance (wal : Wal) (s : State) : (op : Op) → Decidable (OneLock wal s op)
  | .startup =>
    match hs : s.stage with
    | .redo k =>
      match hb : (wal.record s.current).body with
      | .locks locks =>
        decidable_of_iff (∀ l ∈ locks[k]?, s.findLock l = none →
            ∀ e ∈ s.lockTbl, e.lsn ≠ (wal.record s.current).stop)
          ⟨fun h j hj ls hls => by
            obtain rfl : k = j := Stage.redo.inj (hs.symm.trans hj)
            obtain rfl : locks = ls := Body.locks.inj (hb.symm.trans hls)
            exact h, fun h => h k hs locks hb⟩
      | .xact _ _ | .runningXacts _ _ | .other =>
        .isTrue fun _ _ ls hls => absurd (hb.symm.trans hls) (by simp)
    | .idle | .gate | .release _ | .panicked =>
      .isTrue fun _ hj => absurd (hs.symm.trans hj) (by simp)
  | .worker | .readApply | .reply => .isTrue trivial

/-- One lock is replayed, acquired and reported. -/
theorem lock_reports_safe_one_lock : ∃ s,
    Reaches (State.step (locksWal [⟨7, 1, 5⟩])) (OneLock (locksWal [⟨7, 1, 5⟩]))
      (.init (locksWal [⟨7, 1, 5⟩])) s ∧
    SafeReports (locksWal [⟨7, 1, 5⟩]) s ∧ s.reports = [20, 10] ∧
      s.lockTbl = [{ lock := ⟨7, 1, 5⟩, lsn := 20, state := .got }] := by
  obtain ⟨s, run, hview⟩ := exists_reaches_tested (State.step (locksWal [⟨7, 1, 5⟩]))
    (OneLock (locksWal [⟨7, 1, 5⟩])) (.init (locksWal [⟨7, 1, 5⟩]))
    [.startup, .startup, .startup, .startup, .readApply, .worker, .reply, .worker, .worker,
      .readApply, .reply]
    (fun s => s.reports = [20, 10] ∧ s.lockTbl = [{ lock := ⟨7, 1, 5⟩, lsn := 20, state := .got }])
    (by decide +kernel)
  exact ⟨s, run, (lock_reports_safe _).1 s run, hview⟩

/-- The first of the two locks of a record is acquired, and the second is not: the position that is
reported is the end of the record. -/
theorem lock_reports_unsafe : ¬ ∀ (wal : Wal) (s : State),
    Reaches (State.step wal) (fun _ _ => True) (.init wal) s → SafeReports wal s := by
  intro hall
  obtain ⟨s, run, hreports, htbl⟩ := exists_reaches_any
    (State.step (locksWal [⟨7, 1, 5⟩, ⟨8, 1, 6⟩])) (.init (locksWal [⟨7, 1, 5⟩, ⟨8, 1, 6⟩]))
    (replicate 5 .startup ++ replicate 3 .worker ++ [.readApply, .reply])
    (fun s => s.reports = [20] ∧ s.lockTbl = [{ lock := ⟨7, 1, 5⟩, lsn := 20, state := .got },
      { lock := ⟨8, 1, 6⟩, lsn := 20, state := .idle }]) (by decide +kernel)
  have hsettled := hall _ s run 20 (by simp [hreports]) 0 _ rfl le_rfl ⟨8, 1, 6⟩ (by simp)
  rcases hsettled with ⟨e, he, hlock, _, hgot⟩ | ⟨_, hskip⟩
  · rw [htbl] at he
    simp only [mem_cons, not_mem_nil, or_false] at he
    rcases he with rfl | rfl
    · cases hlock
    · cases hgot
  · have := hskip { lock := ⟨8, 1, 6⟩, lsn := 20, state := .idle } (by simp [htbl]) rfl le_rfl
    cases this

end Polar.LockReplay
