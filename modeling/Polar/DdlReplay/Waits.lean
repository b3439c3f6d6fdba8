import Polar.DdlReplay.System
import Mathlib.Order.Monotone.Basic

/-!
# The position that a replayed truncation or drop waits for

The table of the startup process holds, for every running xid, the end of the last record that
reported a new lock of it. The wait position is thus right if the last lock record of the tree is
found that way. A lock under another member, or a lock that is reported again, is not.
-/

namespace Polar.DdlReplay

open State (didEnd redo)

open List

open LockReplay (Lock)

variable {wal : Wal} {node : Node} {top : Nat → Nat} {s t : State}

namespace Wal

theorem stop_mono (wal : Wal) : StrictMono fun i => (wal.record i).stop :=
  strictMono_nat_of_lt_succ wal.stop_lt

theorem stop_pos (wal : Wal) (i : Nat) : 0 < (wal.record i).stop :=
  calc 0 < wal.begin := wal.begin_pos
    _ < (wal.record 0).stop := wal.begin_lt
    _ ≤ (wal.record i).stop := wal.stop_mono.monotone (Nat.zero_le i)

theorem FirstReport.reports {j xid : Nat} (h : wal.FirstReport j xid) : wal.Reports j xid := by
  obtain ⟨l, hl, hxid, -⟩ := h
  exact ⟨l, hl, hxid⟩

variable {i xid : Nat}

theorem Ended.succ (h : wal.Ended i xid) : wal.Ended (i + 1) xid := by
  rcases h with h | ⟨k, hk, h⟩
  · exact .inl h
  · exact .inr ⟨k, Nat.lt_succ_of_lt hk, h⟩

theorem ended_succ_iff : wal.Ended (i + 1) xid ↔ wal.Ended i xid ∨ (wal.record i).Ends xid := by
  constructor
  · rintro (h | ⟨k, hk, h⟩)
    · exact .inl (.inl h)
    · rcases Nat.lt_succ_iff_lt_or_eq.mp hk with hk | rfl
      · exact .inl (.inr ⟨k, hk, h⟩)
      · exact .inr h
  · rintro (h | h)
    · exact h.succ
    · exact .inr ⟨i, Nat.lt_succ_self i, h⟩

/-- The lock is reported before record `i`. -/
def Reported (wal : Wal) (i : Nat) (l : Lock) : Prop := ∃ j < i, l ∈ (wal.record j).lockList

theorem reported_succ_iff {i : Nat} {l : Lock} :
    wal.Reported (i + 1) l ↔ wal.Reported i l ∨ l ∈ (wal.record i).lockList := by
  constructor
  · rintro ⟨j, hj, hl⟩
    rcases Nat.lt_succ_iff_lt_or_eq.mp hj with hj | rfl
    · exact .inl ⟨j, hj, hl⟩
    · exact .inr hl
  · rintro (⟨j, hj, hl⟩ | hl)
    · exact ⟨j, Nat.lt_succ_of_lt hj, hl⟩
    · exact ⟨i, Nat.lt_succ_self i, hl⟩

theorem firstReport_iff :
    wal.FirstReport i xid ↔ ∃ l ∈ (wal.record i).lockList, l.xid = xid ∧ ¬wal.Reported i l := by
  simp [FirstReport, Reported]

end Wal

namespace State

/-! ## The functions on the tables -/

@[simp] theorem acquire_didEnd (s : State) (l : Lock) (lsn cur xid : Nat) :
    (s.acquire l lsn cur).didEnd xid = s.didEnd xid := by
  simp only [acquire]
  split
  · rfl
  · split <;> rfl

theorem acquire_committed (s : State) (l : Lock) (lsn cur : Nat) :
    (s.acquire l lsn cur).committed = s.committed ∧ (s.acquire l lsn cur).aborted = s.aborted := by
  simp only [acquire]
  split
  · exact ⟨rfl, rfl⟩
  · split <;> exact ⟨rfl, rfl⟩

variable {s : State}

theorem mem_lockHash_acquire {l l' : Lock} {lsn cur : Nat} (hvalid : l'.xid ≠ 0)
    (hlive : s.didEnd l'.xid = false) :
    l' ∈ (s.acquire l lsn cur).lockHash ↔ l' ∈ s.lockHash ∨ l' = l := by
  simp only [acquire]
  split
  · next h =>
    constructor
    · exact .inl
    · rintro (h' | rfl)
      · exact h'
      · simp [hvalid, hlive] at h
  · split
    · next h =>
      constructor
      · exact .inl
      · rintro (h' | rfl)
        · exact h'
        · exact h
    · simp [or_comm]

variable {l : Lock}

theorem xidHash_acquire_of_ne {lsn cur xid : Nat} (h : l.xid ≠ xid) :
    (s.acquire l lsn cur).xidHash xid = s.xidHash xid := by
  simp only [acquire]
  split
  · rfl
  · split <;> simp [Function.update_of_ne h.symm]

theorem xidHash_acquire_known {lsn cur : Nat} (h : l ∈ s.lockHash)
    (hsome : (s.xidHash l.xid).isSome) : (s.acquire l lsn cur).xidHash = s.xidHash := by
  obtain ⟨e, he⟩ := Option.isSome_iff_exists.mp hsome
  simp only [acquire]
  split
  · rfl
  · funext xid
    by_cases hx : xid = l.xid
    · subst hx
      simp [he]
    · simp [Function.update_of_ne hx]

theorem xidHash_acquire_new (lsn : Nat) (hvalid : l.xid ≠ 0)
    (hlive : s.didEnd l.xid = false) (h : l ∉ s.lockHash) :
    (s.acquire l lsn lsn).xidHash l.xid = some lsn := by
  simp [acquire, hvalid, hlive, h]

@[simp] theorem acquireAll_committed (s : State) (locks : List Lock) (stop : Nat) :
    (s.acquireAll locks stop).committed = s.committed := by
  induction locks generalizing s with
  | nil => rfl
  | cons l locks ih => exact (ih _).trans (acquire_committed s l stop stop).1

@[simp] theorem acquireAll_aborted (s : State) (locks : List Lock) (stop : Nat) :
    (s.acquireAll locks stop).aborted = s.aborted := by
  induction locks generalizing s with
  | nil => rfl
  | cons l locks ih => exact (ih _).trans (acquire_committed s l stop stop).2

variable {locks : List Lock}

theorem mem_lockHash_acquireAll {stop : Nat} (hvalid : l.xid ≠ 0) (hlive : s.didEnd l.xid = false) :
    l ∈ (s.acquireAll locks stop).lockHash ↔ l ∈ s.lockHash ∨ l ∈ locks := by
  induction locks generalizing s with
  | nil => simp [acquireAll]
  | cons l' locks ih =>
    have hrest := ih (s := s.acquire l' stop stop) (by simpa using hlive)
    rw [mem_lockHash_acquire hvalid hlive] at hrest
    simpa [acquireAll, or_assoc] using hrest

/-- A xid none of whose locks is new keeps its entry. -/
theorem xidHash_acquireAll_known {stop xid : Nat}
    (h : ∀ l ∈ locks, l.xid = xid → l ∈ s.lockHash ∧ (s.xidHash xid).isSome) :
    (s.acquireAll locks stop).xidHash xid = s.xidHash xid := by
  induction locks generalizing s with
  | nil => rfl
  | cons l locks ih =>
    have hfirst : (s.acquire l stop stop).xidHash xid = s.xidHash xid := by
      by_cases hx : l.xid = xid
      · obtain ⟨hmem, hsome⟩ := h l mem_cons_self hx
        rw [xidHash_acquire_known hmem (hx ▸ hsome)]
      · exact xidHash_acquire_of_ne hx
    have hgrow : ∀ l' ∈ s.lockHash, l' ∈ (s.acquire l stop stop).lockHash := by
      intro l' hl'
      simp only [acquire]
      split
      · exact hl'
      · split
        · exact hl'
        · exact mem_cons_of_mem _ hl'
    refine (ih ?_).trans hfirst
    intro l' hl' hx
    obtain ⟨hmem, hsome⟩ := h l' (mem_cons_of_mem _ hl') hx
    exact ⟨hgrow l' hmem, hfirst ▸ hsome⟩

/-- A running xid with a new lock gets the end of the record. -/
theorem xidHash_acquireAll_new {stop xid : Nat} (hvalid : xid ≠ 0)
    (hlive : s.didEnd xid = false) (h : ∃ l ∈ locks, l.xid = xid ∧ l ∉ s.lockHash) :
    (s.acquireAll locks stop).xidHash xid = some stop := by
  induction locks generalizing s with
  | nil => simp at h
  | cons l locks ih =>
    have hlive' : (s.acquire l stop stop).didEnd xid = false := by simpa using hlive
    by_cases hrest : ∃ l' ∈ locks, l'.xid = xid ∧ l' ∉ (s.acquire l stop stop).lockHash
    · exact ih hlive' hrest
    · -- the last new lock of the xid is the first of the list
      push Not at hrest
      obtain ⟨l', hl', hx, hnew⟩ := h
      have hl : l' = l := by
        rcases mem_cons.mp hl' with rfl | hl'
        · rfl
        · have hmem := hrest l' hl' hx
          subst hx
          exact ((mem_lockHash_acquire hvalid hlive).mp hmem).resolve_left hnew
      subst hl hx
      have hset := xidHash_acquire_new stop hvalid hlive hnew
      change ((s.acquire l' stop stop).acquireAll locks stop).xidHash l'.xid = some stop
      refine (xidHash_acquireAll_known ?_).trans hset
      exact fun l'' hl'' hx => ⟨hrest l'' hl'' hx, by simp [hset]⟩

/-- The entries of the xid are the same. -/
structure Same (xid : Nat) (s t : State) : Prop where
  lockHash : ∀ l : Lock, l.xid = xid → (l ∈ t.lockHash ↔ l ∈ s.lockHash)
  xidHash : t.xidHash xid = s.xidHash xid

theorem Same.refl (xid : Nat) (s : State) : Same xid s s := ⟨fun _ _ => Iff.rfl, rfl⟩

variable {xid : Nat}

theorem Same.trans {s t u : State} (h : Same xid s t) (h' : Same xid t u) : Same xid s u :=
  ⟨fun l hl => (h'.lockHash l hl).trans (h.lockHash l hl), h'.xidHash.trans h.xidHash⟩

theorem same_release {out : Nat → Bool} (h : out xid = false) : Same xid s (s.release out) := by
  refine ⟨fun l hl => ?_, ?_⟩
  · subst hl
    simp [release, h]
  · simp [release, h]

theorem same_releaseLocks {xid other : Nat} (hother : other ≠ 0) (h : xid ≠ other) :
    Same xid s (s.releaseLocks other) := by
  simp only [releaseLocks, if_pos hother]
  exact same_release (by simpa using h)

variable {subxids : List Nat}

theorem same_releaseLockTree {xid first : Nat}
    (hvalid : ∀ other ∈ first :: subxids, other ≠ 0) (h : xid ∉ first :: subxids) :
    Same xid s (s.releaseLockTree first subxids) := by
  obtain ⟨hfirst, hrest⟩ := forall_mem_cons.mp hvalid
  rw [mem_cons, not_or] at h
  suffices key : ∀ (subs : List Nat) (u : State), (∀ other ∈ subs, other ≠ 0) → xid ∉ subs →
      Same xid u (subs.foldl releaseLocks u) from
    (same_releaseLocks hfirst h.1).trans (key subxids _ hrest h.2)
  intro subs
  induction subs with
  | nil => exact fun u _ _ => .refl xid u
  | cons sub subs ih =>
    intro u hvalid hnot
    obtain ⟨hsub, hsubs⟩ := forall_mem_cons.mp hvalid
    rw [mem_cons, not_or] at hnot
    exact (same_releaseLocks hsub hnot.1).trans (ih _ hsubs hnot.2)

@[simp] theorem releaseLocks_didEnd (s : State) (xid other : Nat) :
    (s.releaseLocks other).didEnd xid = s.didEnd xid := by
  simp only [releaseLocks]
  split <;> rfl

@[simp] theorem releaseLockTree_didEnd (s : State) (xid other : Nat) (subxids : List Nat) :
    (s.releaseLockTree other subxids).didEnd xid = s.didEnd xid := by
  suffices key : ∀ (subs : List Nat) (u : State),
      (subs.foldl releaseLocks u).didEnd xid = u.didEnd xid from
    (key subxids _).trans (releaseLocks_didEnd s xid other)
  intro subs
  induction subs with
  | nil => exact fun u => rfl
  | cons sub subs ih => exact fun u => (ih _).trans (releaseLocks_didEnd u xid sub)

/-! ## The wait position is the largest entry that is looked up -/

end State

/-! ## The table along a replay -/

/-- The tables are what the replayed records make of them. -/
structure Inv (wal : Wal) (s : State) : Prop where
  replayed : 0 < s.lastReplayedEnd
  ended : ∀ xid, s.didEnd xid = true ↔ wal.Ended s.next xid
  locks : ∀ l : Lock, l.xid ≠ 0 → ¬wal.Ended s.next l.xid →
    (l ∈ s.lockHash ↔ wal.Reported s.next l)
  known : ∀ xid, xid ≠ 0 → ¬wal.Ended s.next xid → ∀ j < s.next, wal.Reports j xid →
    (s.xidHash xid).isSome
  latest : ∀ xid, xid ≠ 0 → ¬wal.Ended s.next xid → ∀ lsn, s.xidHash xid = some lsn →
    ∃ j < s.next, wal.FirstReport j xid ∧ lsn = (wal.record j).stop ∧
      ∀ k < s.next, wal.FirstReport k xid → k ≤ j

namespace Inv

theorem init (wal : Wal) : Inv wal (.init wal) := by
  refine ⟨wal.begin_pos, ?_, ?_, ?_, ?_⟩
  · simp [State.init, didEnd, Wal.Ended]
  · simp [State.init, Wal.Reported]
  · simp [State.init]
  · simp [State.init]

section

variable (h : Inv wal s)
include h

/-- A record that reports no lock, and keeps the entries of the xids that stay running. -/
theorem keep (hnext : t.next = s.next + 1) (hreplayed : 0 < t.lastReplayedEnd)
    (hlocks : (wal.record s.next).lockList = [])
    (hended : ∀ xid, t.didEnd xid = true ↔ s.didEnd xid = true ∨ (wal.record s.next).Ends xid)
    (hsame : ∀ xid, xid ≠ 0 → ¬wal.Ended (s.next + 1) xid → State.Same xid s t) : Inv wal t := by
  have hlive : ∀ xid, ¬wal.Ended (s.next + 1) xid → ¬wal.Ended s.next xid :=
    fun xid hnot hended => hnot hended.succ
  have hbefore : ∀ {j xid : Nat}, j < s.next + 1 → wal.Reports j xid → j < s.next := by
    rintro j xid hj ⟨l, hl, -⟩
    rcases Nat.lt_succ_iff_lt_or_eq.mp hj with hj | rfl
    · exact hj
    · simp [hlocks] at hl
  refine ⟨hreplayed, ?_, ?_, ?_, ?_⟩
  · intro xid
    rw [hended, h.ended, hnext, Wal.ended_succ_iff]
  · intro l hvalid hnot
    rw [hnext] at hnot ⊢
    rw [(hsame _ hvalid hnot).lockHash l rfl, h.locks l hvalid (hlive _ hnot),
      Wal.reported_succ_iff, hlocks, or_iff_left not_mem_nil]
  · intro xid hvalid hnot j hj hreports
    rw [hnext] at hnot hj
    rw [(hsame _ hvalid hnot).xidHash]
    exact h.known xid hvalid (hlive _ hnot) j (hbefore hj hreports) hreports
  · intro xid hvalid hnot lsn hlsn
    rw [hnext] at hnot ⊢
    rw [(hsame _ hvalid hnot).xidHash] at hlsn
    obtain ⟨j, hj, hfirst, hstop, hlast⟩ := h.latest xid hvalid (hlive _ hnot) lsn hlsn
    refine ⟨j, Nat.lt_succ_of_lt hj, hfirst, hstop, ?_⟩
    exact fun k hk hk' => hlast k (hbefore hk hk'.reports) hk'

/-- An xid that no record reported has no entry. -/
theorem absent {xid : Nat} (hvalid : xid ≠ 0) (hlive : ¬wal.Ended s.next xid)
    (hno : ∀ j < s.next, ¬wal.Reports j xid) :
    s.xidHash xid = none ∧ ∀ l : Lock, l.xid = xid → l ∉ s.lockHash := by
  constructor
  · cases hx : s.xidHash xid with
    | none => rfl
    | some lsn =>
      obtain ⟨j, hj, hfirst, -⟩ := h.latest xid hvalid hlive lsn hx
      exact absurd hfirst.reports (hno j hj)
  · rintro l rfl hl
    obtain ⟨j, hj, hmem⟩ := (h.locks l hvalid hlive).mp hl
    exact hno j hj ⟨l, hmem, rfl⟩

/-- `XLOG_STANDBY_LOCK`. -/
theorem acquireAll {locks : List Lock} (hbody : (wal.record s.next).body = .locks locks)
    {t : State} (hnext : t.next = s.next + 1) (hreplayed : 0 < t.lastReplayedEnd)
    (hended : ∀ xid, t.didEnd xid = s.didEnd xid)
    (hlockHash : t.lockHash = (s.acquireAll locks (wal.record s.next).stop).lockHash)
    (hxidHash : t.xidHash = (s.acquireAll locks (wal.record s.next).stop).xidHash) : Inv wal t := by
  have hlist : (wal.record s.next).lockList = locks := by simp [Record.lockList, hbody]
  have hsucc : ∀ xid, wal.Ended (s.next + 1) xid ↔ wal.Ended s.next xid := by
    intro xid
    rw [Wal.ended_succ_iff]
    simp [Record.Ends, hbody]
  have hdid : ∀ xid, ¬wal.Ended s.next xid → s.didEnd xid = false := by
    intro xid hnot
    rwa [← h.ended, Bool.not_eq_true] at hnot
  -- the locks of the record that are known are those that were reported
  have hnew : ∀ l : Lock, l.xid ≠ 0 → ¬wal.Ended s.next l.xid →
      (l ∉ s.lockHash ↔ ¬wal.Reported s.next l) :=
    fun l hvalid hnot => not_congr (h.locks l hvalid hnot)
  refine ⟨hreplayed, ?_, ?_, ?_, ?_⟩
  · intro xid
    rw [hended, h.ended, hnext, hsucc]
  · intro l hvalid hnot
    rw [hnext, hsucc] at hnot
    rw [hnext, hlockHash, State.mem_lockHash_acquireAll hvalid (hdid _ hnot),
      h.locks l hvalid hnot, Wal.reported_succ_iff, hlist]
  · intro xid hvalid hnot j hj hreports
    rw [hnext, hsucc] at hnot
    rw [hnext] at hj
    rw [hxidHash]
    by_cases hfresh : ∃ l ∈ locks, l.xid = xid ∧ l ∉ s.lockHash
    · simp [State.xidHash_acquireAll_new hvalid (hdid _ hnot) hfresh]
    · push Not at hfresh
      have hsome : (s.xidHash xid).isSome := by
        rcases Nat.lt_succ_iff_lt_or_eq.mp hj with hj | rfl
        · exact h.known xid hvalid hnot j hj hreports
        · obtain ⟨l, hl, rfl⟩ := hreports
          obtain ⟨k, hk, hmem⟩ := (h.locks l hvalid hnot).mp (hfresh l (hlist ▸ hl) rfl)
          exact h.known l.xid hvalid hnot k hk ⟨l, hmem, rfl⟩
      rwa [State.xidHash_acquireAll_known fun l hl hx => ⟨hfresh l hl hx, hsome⟩]
  · intro xid hvalid hnot lsn hlsn
    rw [hnext, hsucc] at hnot
    rw [hnext]
    rw [hxidHash] at hlsn
    by_cases hfresh : ∃ l ∈ locks, l.xid = xid ∧ l ∉ s.lockHash
    · rw [State.xidHash_acquireAll_new hvalid (hdid _ hnot) hfresh] at hlsn
      refine ⟨s.next, Nat.lt_succ_self _, ?_, (Option.some.inj hlsn).symm, ?_⟩
      · obtain ⟨l, hl, rfl, hl'⟩ := hfresh
        exact Wal.firstReport_iff.mpr ⟨l, hlist ▸ hl, rfl, (hnew l hvalid hnot).mp hl'⟩
      · exact fun k hk _ => Nat.le_of_lt_succ hk
    · push Not at hfresh
      have hnofirst : ¬wal.FirstReport s.next xid := by
        rw [Wal.firstReport_iff]
        rintro ⟨l, hl, rfl, hl'⟩
        exact hl' ((h.locks l hvalid hnot).mp (hfresh l (hlist ▸ hl) rfl))
      have hold : s.xidHash xid = some lsn := by
        rw [← hlsn]
        symm
        apply State.xidHash_acquireAll_known
        intro l hl hx
        have hmem := hfresh l hl hx
        refine ⟨hmem, ?_⟩
        subst hx
        obtain ⟨k, hk, hk'⟩ := (h.locks l hvalid hnot).mp hmem
        exact h.known l.xid hvalid hnot k hk ⟨l, hk', rfl⟩
      obtain ⟨j, hj, hfirst, hstop, hlast⟩ := h.latest xid hvalid hnot lsn hold
      refine ⟨j, Nat.lt_succ_of_lt hj, hfirst, hstop, ?_⟩
      intro k hk hk'
      rcases Nat.lt_succ_iff_lt_or_eq.mp hk with hk | rfl
      · exact hlast k hk hk'
      · exact absurd hk' hnofirst

/-- A commit or an abort: the marks, then the release of the locks. -/
theorem finish (hwf : wal.WellFormed top) {u : State} {subxacts : List Nat}
    {hasAeLocks : Bool} {actions : List Action} (hlocks : (wal.record s.next).lockList = [])
    (hends : ∀ xid, (wal.record s.next).Ends xid ↔ xid = (wal.record s.next).xid ∨ xid ∈ subxacts)
    (hsame : ∀ xid, State.Same xid s u) (hmark : ∀ xid, u.didEnd xid = true ↔
      s.didEnd xid = true ∨ (wal.record s.next).Ends xid) :
    Inv wal { (if hasAeLocks then u.releaseLockTree (wal.record s.next).xid subxacts else u) with
      actions, next := s.next + 1, lastReplayedEnd := (wal.record s.next).stop } := by
  refine h.keep rfl (wal.stop_pos s.next) hlocks ?_ ?_
  · intro xid
    rw [← hmark]
    cases hasAeLocks with
    | false => rfl
    | true => rw [← u.releaseLockTree_didEnd xid (wal.record s.next).xid subxacts]; rfl
  · intro xid _ hlive
    have hnot : xid ∉ (wal.record s.next).xid :: subxacts := by
      intro hmem
      exact hlive (Wal.ended_succ_iff.mpr (.inr ((hends xid).mpr (mem_cons.mp hmem))))
    cases hasAeLocks with
    | false => exact ⟨(hsame xid).lockHash, (hsame xid).xidHash⟩
    | true =>
      have hrelease : State.Same xid u (u.releaseLockTree (wal.record s.next).xid subxacts) := by
        apply State.same_releaseLockTree _ hnot
        rintro other hother rfl
        exact hwf.valid s.next ((hends 0).mpr (mem_cons.mp hother))
      have hall := (hsame xid).trans hrelease
      exact ⟨hall.lockHash, hall.xidHash⟩

/-- The replay of a record keeps the invariant. -/
theorem replay (hwf : wal.WellFormed top) : Inv wal (s.replay wal node) := by
  have hpos := wal.stop_pos s.next
  cases hbody : (wal.record s.next).body with
  | locks locks =>
    refine h.acquireAll hbody rfl hpos ?_ ?_ ?_
    · intro xid
      simp [State.replay, redo, hbody, didEnd]
    · simp [State.replay, redo, hbody]
    · simp [State.replay, redo, hbody]
  | commit subxacts hasAeLocks nrels =>
    simp only [State.replay, redo, hbody]
    apply h.finish hwf
    · simp [Record.lockList, hbody]
    · simp [Record.Ends, hbody]
    · exact fun xid => ⟨fun _ _ => Iff.rfl, rfl⟩
    · intro xid
      simp [didEnd, Record.Ends, hbody]
      tauto
  | abort subxacts hasAeLocks nrels =>
    simp only [State.replay, redo, hbody]
    apply h.finish hwf
    · simp [Record.lockList, hbody]
    · simp [Record.Ends, hbody]
    · exact fun xid => ⟨fun _ _ => Iff.rfl, rfl⟩
    · intro xid
      simp [didEnd, Record.Ends, hbody]
      tauto
  | truncate nforks =>
    simp only [State.replay, redo, hbody, State.smgrRedoTruncate]
    refine h.keep rfl hpos ?_ ?_ fun xid _ _ => ⟨fun _ _ => Iff.rfl, rfl⟩
    · simp [Record.lockList, hbody]
    · simp [didEnd, Record.Ends, hbody]
  | runningXacts oldest prepared =>
    simp only [State.replay, redo, hbody, State.releaseOldLocks]
    refine h.keep rfl hpos ?_ ?_ ?_
    · simp [Record.lockList, hbody]
    · simp [State.release, didEnd, Record.Ends, hbody]
    · intro xid hvalid hlive
      have hlive' : ¬wal.Ended s.next xid := fun hended => hlive hended.succ
      by_cases hrep : ∃ j < s.next, wal.Reports j xid
      · obtain ⟨j, hj, hreports⟩ := hrep
        have hold := hwf.oldest s.next oldest prepared hbody j hj xid hreports hlive'
        have hkept : State.Same xid s
            (s.release fun x => !prepared.contains x && decide (x < oldest)) :=
          State.same_release (by simp [hold])
        exact ⟨hkept.lockHash, hkept.xidHash⟩
      · push Not at hrep
        obtain ⟨hxid, hlock⟩ := h.absent hvalid hlive' hrep
        refine ⟨fun l hl => ?_, ?_⟩
        · simp [State.release, hlock l hl]
        · simp [State.release, hxid]
  | other =>
    simp only [State.replay, redo, hbody]
    refine h.keep rfl hpos ?_ ?_ fun xid _ _ => ⟨fun _ _ => Iff.rfl, rfl⟩
    · simp [Record.lockList, hbody]
    · simp [didEnd, Record.Ends, hbody]

end

theorem step (h : Inv wal s) (hwf : wal.WellFormed top) {op : Op}
    (hs : step wal node s op = some t) : Inv wal t := by
  cases op with
  | replay =>
    cases hs
    exact h.replay hwf
  | activate =>
    cases hs
    exact { h with }

end Inv

theorem inv_of_reaches (hwf : wal.WellFormed top)
    (run : Reaches (step wal node) (fun _ _ => True) (.init wal) s) : Inv wal s :=
  run.invariant (Inv wal) (Inv.init wal) fun _ _ _ h _ hs => h.step hwf hs

/-! ## The wait -/

/-- The entry of an xid that is looked up is the end of the last record with a new lock of it. -/
theorem Inv.latestEndLsn (h : Inv wal s) {xid : Nat} (hvalid : xid ≠ 0)
    (hlive : ¬wal.Ended s.next xid) (hpos : 0 < s.latestEndLsn xid) :
    ∃ j < s.next, wal.FirstReport j xid ∧ s.latestEndLsn xid = (wal.record j).stop := by
  rw [State.latestEndLsn, if_pos hvalid] at hpos ⊢
  cases hx : s.xidHash xid with
  | none => simp [hx] at hpos
  | some lsn =>
    obtain ⟨j, hj, hfirst, hstop, -⟩ := h.latest xid hvalid hlive lsn hx
    exact ⟨j, hj, hfirst, by simpa using hstop⟩

end Polar.DdlReplay
