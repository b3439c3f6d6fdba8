import Polar.LockReplay.Reports

/-!
# The books of the worker

The tables of the replay of locks, with the heavyweight locks that the worker holds. The calls of
the startup process come in any order here, and not only as a WAL has them.
-/

namespace Polar.LockReplay

open List Function

/-- `LOCKTAG_RELATION`. -/
def Lock.tag (l : Lock) : Nat × Nat := (l.dbOid, l.relOid)

/-- The tables, and what they are compared with. -/
structure Books extends State where
  /-- The LSN of the last call of `polar_alr_add_async_lock`. -/
  lastAdd : Nat
  /-- How many times the worker holds the `AccessExclusiveLock` of a relation. -/
  held : Nat × Nat → Nat
  /-- The entries that `LockRelease` was called for. -/
  released : List Lock

namespace Books

def init (wal : Wal) : Books :=
  { State.init wal with lastAdd := 0, held := fun _ => 0, released := [] }

variable (b : Books)

/-- The body of the loop of `alr_release_locks`. -/
def releaseLock (l : Lock) : Option Books :=
  (b.findLock l).bind fun e =>
    -- The worker is not waiting for the lock, and `LockRelease` fails for one that is not held.
    if e.state = .getting ∨ e.state = .got ∧ b.held l.tag = 0 then none
    else some { b with
      lockTbl := b.lockTbl.filter (·.lock ≠ l)
      queue := if e.state = .idle then b.queue.filter (· ≠ l) else b.queue
      held := if e.state = .got then update b.held l.tag (b.held l.tag - 1) else b.held
      released := if e.state = .got then b.released ++ [l] else b.released }

/-- The locks of the xacts that do not run. -/
def finishedLocks : List Lock :=
  (b.xactTbl.filter fun x => !x.running).flatMap Xact.locks

/-- The loop of `alr_try_to_acquire_lock` over the xacts. -/
def releaseFinished : Option Books :=
  (b.finishedLocks.foldlM releaseLock b).map fun b' =>
    { b' with xactTbl := b.xactTbl.filter Xact.running }

/-- The next step of the worker. -/
def workerStep (b : Books) : Option Books :=
  match b.worker with
  | .idle => b.releaseFinished.map fun b => { b with toState := b.popHead }
  | .getting l => some { b with
      toState := b.toState.workerStep
      held := update b.held l.tag (b.held l.tag + 1) }
  | .got _ => some { b with toState := b.toState.workerStep }

/-- A call that changes the tables. -/
inductive Call where
  | add (l : Lock) (lsn lastLsn : Nat)
  | release (xid : Nat)
  | releaseOld (oldxid : Nat) (prepared : List Nat)
  /-- `pg_xact` gets the outcome of a transaction. -/
  | finish (xid : Nat)
  | worker
  deriving DecidableEq, Repr

/-- One call, or one step of the worker. -/
def step : Call → Option Books
  | .add l lsn lastLsn => some { b with toState := b.addAsyncLock l lsn lastLsn, lastAdd := lsn }
  | .release xid => some { b with
      toState := if xid = 0 then b.markFinished fun _ => true else b.releaseLocks xid }
  | .releaseOld oldxid prepared => some { b with toState := b.releaseOldLocks oldxid prepared }
  | .finish xid => some { b with clog := xid :: b.clog }
  | .worker => b.workerStep

/-- The calls come with the ends of the records in the order of the WAL, as the source asserts, and
with the end of an earlier record. -/
def Ok : Call → Prop
  | .add _ lsn lastLsn => b.lastAdd ≤ lsn ∧ 0 < lastLsn ∧ lastLsn ≤ lsn
  | _ => True

instance (b : Books) : (call : Call) → Decidable (b.Ok call)
  | .add .. => inferInstanceAs (Decidable (_ ∧ _))
  | .release _ | .releaseOld .. | .finish _ | .worker => .isTrue trivial

/-- How many entries of a relation are got. -/
def gotCount (tbl : List Entry) (tag : Nat × Nat) : Nat :=
  tbl.countP fun e => e.state = .got ∧ e.lock.tag = tag

/-- The worker holds the lock. -/
def isGot (l : Lock) : Bool := (b.findLock l).any (·.state = .got)

/-- The entries of `ls` are gone, and those that were got are released. -/
def without (ls : List Lock) : Books :=
  { b with
    lockTbl := b.lockTbl.filter (·.lock ∉ ls)
    queue := b.queue.filter (· ∉ ls)
    held := gotCount (b.lockTbl.filter (·.lock ∉ ls))
    released := b.released ++ ls.filter b.isGot }

/-- The locks of a transaction, in the order of insertion. -/
def locksOf (tbl : List Entry) (xid : Nat) : List Lock :=
  (tbl.filter (·.lock.xid = xid)).map Entry.lock

/-- What every call keeps of the tables. -/
structure Good (b : Books) : Prop where
  tbl : TblOk b.lockTbl b.queue b.worker b.lsn
  xact : XactOk b.lockTbl b.xactTbl
  lists : ∀ x ∈ b.xactTbl, x.locks = locksOf b.lockTbl x.xid
  bound : ∀ e ∈ b.lockTbl, e.lsn ≤ b.lastAdd
  lsnBound : b.lsn ≤ b.lastAdd
  held : b.held = gotCount b.lockTbl

variable {b b' : Books} {e : Entry}

theorem gotCount_filter {tbl : List Entry} (hnodup : (tbl.map Entry.lock).Nodup) (he : e ∈ tbl)
    (tag : Nat × Nat) : gotCount tbl tag = gotCount (tbl.filter (·.lock ∉ [e.lock])) tag +
      if e.state = .got ∧ e.lock.tag = tag then 1 else 0 := by
  obtain ⟨pre, post, rfl⟩ := append_of_mem he
  simp only [map_append, map_cons, nodup_append, nodup_cons] at hnodup
  have hpre : pre.filter (·.lock ∉ [e.lock]) = pre := filter_eq_self.mpr fun a ha => by
    simpa using hnodup.2.2 _ (mem_map_of_mem ha) _ mem_cons_self
  have hpost : post.filter (·.lock ∉ [e.lock]) = post := filter_eq_self.mpr fun a ha => by
    have hne : a.lock ≠ e.lock := fun heq => hnodup.2.1.1 (heq ▸ mem_map_of_mem ha)
    simpa using hne
  rw [filter_append, filter_cons_of_neg (by simp), hpre, hpost]
  simp only [gotCount, countP_append, countP_cons, decide_eq_true_eq]
  omega

theorem gotCount_set {pre post : List Entry} {state : LockState} (hold : e.state ≠ .got)
    (tag : Nat × Nat) : gotCount (pre ++ { e with state } :: post) tag =
      gotCount (pre ++ e :: post) tag + if state = .got ∧ e.lock.tag = tag then 1 else 0 := by
  simp only [gotCount, countP_append, countP_cons, decide_eq_true_eq]
  simp only [hold, false_and, if_false]
  omega

/-- A lock of the table is found and released. -/
theorem releaseLock_eq {pos : Nat} (htbl : TblOk b.lockTbl b.queue .idle pos)
    (hheld : b.held = gotCount b.lockTbl) (he : e ∈ b.lockTbl) :
    b.releaseLock e.lock = some (b.without [e.lock]) := by
  have hfind : b.findLock e.lock = some e := htbl.find_eq he
  have hcount := gotCount_filter htbl.nodup he
  -- Only an idle entry is in the queue.
  have hqueue : (if e.state = .idle then b.queue.filter (· ≠ e.lock) else b.queue) =
      b.queue.filter (· ∉ [e.lock]) := by
    split
    · simp
    · next hne =>
      refine (filter_eq_self.mpr fun l hl => ?_).symm
      rw [htbl.queue] at hl
      obtain ⟨a, ha, rfl⟩ := mem_map.mp hl
      obtain ⟨ha, hidle⟩ := mem_filter.mp ha
      have hlock : a.lock ≠ e.lock := fun heq =>
        hne (htbl.eq_of_lock ha he heq ▸ of_decide_eq_true hidle)
      simpa using hlock
  have hnot : ¬ (e.state = .getting ∨ e.state = .got ∧ b.held e.lock.tag = 0) := by
    rintro (hgetting | ⟨hgot, hzero⟩)
    · exact htbl.worker e he hgetting
    · rw [hheld, hcount, if_pos ⟨hgot, rfl⟩] at hzero
      cases hzero
  have hheld' : (if e.state = .got then update b.held e.lock.tag (b.held e.lock.tag - 1)
      else b.held) = gotCount (b.lockTbl.filter (·.lock ∉ [e.lock])) := by
    funext tag
    have htag := hcount tag
    rw [← hheld] at htag
    split
    · next hgot =>
      by_cases heq : tag = e.lock.tag
      · subst heq
        rw [if_pos ⟨hgot, rfl⟩] at htag
        rw [update_self]
        omega
      · rw [update_of_ne heq, htag, if_neg fun hand => heq hand.2.symm, add_zero]
    · next hgot => rw [htag, if_neg fun hand => hgot hand.1, add_zero]
  rw [releaseLock, hfind, Option.bind_some, if_neg hnot, hqueue, hheld', without]
  by_cases hgot : e.state = .got <;> simp [isGot, hfind, hgot]

theorem foldlM_releaseLock {pos : Nat} {ls : List Lock} (htbl : TblOk b.lockTbl b.queue .idle pos)
    (hheld : b.held = gotCount b.lockTbl) (hnodup : ls.Nodup)
    (hmem : ∀ l ∈ ls, ∃ e ∈ b.lockTbl, e.lock = l) :
    ls.foldlM releaseLock b = some (b.without ls) := by
  induction ls generalizing b with
  | nil =>
    simp only [foldlM_nil, without, not_mem_nil, not_false_eq_true, decide_true,
      filter_true, filter_nil, append_nil, ← hheld]
    rfl
  | cons l ls ih =>
    obtain ⟨hl, hls⟩ := nodup_cons.mp hnodup
    obtain ⟨e, he, rfl⟩ := hmem _ mem_cons_self
    have htbl' : TblOk (b.without [e.lock]).lockTbl (b.without [e.lock]).queue .idle pos :=
      htbl.filter fun l => decide (l ∉ [e.lock])
    rw [foldlM_cons, releaseLock_eq htbl hheld he, Option.bind_eq_bind, Option.bind_some]
    rw [ih htbl' rfl hls]
    · have hkeep : ∀ k : Lock, (decide (k ∉ ls) && decide (k ∉ [e.lock])) =
          decide (k ∉ e.lock :: ls) := fun k => by simp [Bool.and_comm]
      have hgot : ls.filter (b.without [e.lock]).isGot = ls.filter b.isGot := by
        refine filter_congr fun k hk => ?_
        have hne : k ≠ e.lock := fun heq => hl (heq ▸ hk)
        simp only [isGot, State.findLock, without, List.find?_filter]
        congr 2
        funext a
        by_cases hak : a.lock = k
        · simp [hak, hne]
        · simp [hak]
      rw [without, hgot]
      simp only [without, filter_filter, hkeep, append_assoc, ← filter_append,
        singleton_append]
    · intro k hk
      obtain ⟨a, ha, rfl⟩ := hmem k (mem_cons_of_mem _ hk)
      refine ⟨a, mem_filter.mpr ⟨ha, decide_eq_true fun heq => hl ?_⟩, rfl⟩
      exact mem_singleton.mp heq ▸ hk

theorem popHead_locks (s : State) :
    s.popHead.lockTbl.map Entry.lock = s.lockTbl.map Entry.lock := by
  have hset : ∀ l state, (s.setState l state).lockTbl.map Entry.lock = s.lockTbl.map Entry.lock := by
    intro l state
    rw [State.setState, map_map]
    exact map_congr_left fun e _ => (TblOk.setState_same l state e).1
  unfold State.popHead
  split
  · rfl
  · split <;> exact hset _ _

/-- The transaction of the lock has been marked as finished. -/
def Finished (l : Lock) : Prop := ∃ x ∈ b.xactTbl, x.xid = l.xid ∧ x.running = false

namespace Good

theorem init (wal : Wal) : (Books.init wal).Good where
  tbl := .init
  xact := .init
  lists := by simp [Books.init, State.init]
  bound := by simp [Books.init, State.init]
  lsnBound := Nat.zero_le _
  held := rfl

section

variable (h : b.Good)
include h

theorem finishedLocks_nodup : b.finishedLocks.Nodup := by
  have hsub : (b.xactTbl.filter fun x => !x.running).Sublist b.xactTbl := filter_sublist
  refine nodup_flatMap.mpr ⟨fun x hx => ?_, ?_⟩
  · rw [h.lists x (hsub.subset hx)]
    exact h.tbl.nodup.sublist (filter_sublist.map _)
  · refine (List.Pairwise.sublist hsub (pairwise_map.mp h.xact.nodup)).imp_of_mem ?_
    intro x y hx hy hne l hlx hly
    exact hne ((h.xact.locks x (hsub.subset hx) l hlx).symm.trans
      (h.xact.locks y (hsub.subset hy) l hly))

theorem mem_finishedLocks (l : Lock) :
    l ∈ b.finishedLocks ↔ (∃ e ∈ b.lockTbl, e.lock = l) ∧ b.Finished l := by
  simp only [finishedLocks, mem_flatMap, mem_filter, Bool.not_eq_true']
  constructor
  · rintro ⟨x, ⟨hx, hrun⟩, hl⟩
    refine ⟨?_, x, hx, (h.xact.locks x hx l hl).symm, hrun⟩
    rw [h.lists x hx] at hl
    obtain ⟨e, he, rfl⟩ := mem_map.mp hl
    exact ⟨e, mem_of_mem_filter he, rfl⟩
  · rintro ⟨⟨e, he, rfl⟩, x, hx, hxid, hrun⟩
    refine ⟨x, ⟨hx, hrun⟩, ?_⟩
    rw [h.lists x hx]
    exact mem_map_of_mem (mem_filter.mpr ⟨he, by simp [hxid]⟩)

theorem releaseFinished_eq (hidle : b.worker = .idle) : b.releaseFinished =
    some { b.without b.finishedLocks with xactTbl := b.xactTbl.filter Xact.running } := by
  rw [Books.releaseFinished, foldlM_releaseLock (hidle ▸ h.tbl) h.held h.finishedLocks_nodup
    fun l hl => ((h.mem_finishedLocks l).mp hl).1, Option.map_some]

theorem releaseFinished (hidle : b.worker = .idle) :
    Good { b.without b.finishedLocks with xactTbl := b.xactTbl.filter Xact.running } where
  tbl := by
    have htbl := h.tbl
    rw [hidle] at htbl
    show TblOk _ _ b.worker _
    rw [hidle]
    exact htbl.filter fun l => decide (l ∉ b.finishedLocks)
  xact := h.xact.release
  lists x hx := by
    obtain ⟨hx, hrun⟩ := mem_filter.mp hx
    rw [h.lists x hx]
    show (b.lockTbl.filter _).map _ = ((b.lockTbl.filter _).filter _).map _
    rw [filter_filter]
    congr 1
    refine filter_congr fun e _ => ?_
    by_cases hxid : e.lock.xid = x.xid
    · have hkeep : e.lock ∉ b.finishedLocks := fun hl => by
        obtain ⟨-, y, hy, hyx, hdead⟩ := (h.mem_finishedLocks _).mp hl
        rw [h.xact.eq_of_xid hy hx (hyx.trans hxid), hrun] at hdead
        cases hdead
      simp [hkeep]
    · simp [hxid]
  bound e he := h.bound e (mem_of_mem_filter he)
  lsnBound := h.lsnBound
  held := rfl

theorem setState (he : e ∈ b.lockTbl) (hold : e.state ≠ .got) {state : LockState}
    {queue : List Lock} {worker : Worker} {lsn : Nat} {held : Nat × Nat → Nat}
    (htbl : TblOk (b.toState.setState e.lock state).lockTbl queue worker lsn)
    (hlsn : lsn ≤ b.lastAdd)
    (hheld : ∀ tag, held tag = b.held tag + if state = .got ∧ e.lock.tag = tag then 1 else 0) :
    Good { b with toState := { b.toState.setState e.lock state with queue, worker, lsn }, held } := by
  have hsame := TblOk.setState_same e.lock state
  refine ⟨htbl, h.xact.mapTbl fun a => (hsame a).1, fun x hx => ?_, fun a ha => ?_, hlsn, ?_⟩
  · show x.locks = ((b.lockTbl.map _).filter _).map _
    rw [h.lists x hx, filter_map, map_map]
    simp only [comp_def, (hsame _).1]
    rfl
  · obtain ⟨c, hc, rfl⟩ := mem_map.mp ha
    rw [(hsame c).2]
    exact h.bound c hc
  · obtain ⟨pre, post, heq⟩ := append_of_mem he
    funext tag
    rw [h.tbl.setState_lockTbl heq, gotCount_set hold, ← heq, ← h.held]
    exact hheld tag

theorem popHead (hidle : b.worker = .idle) : Good { b with toState := b.popHead } := by
  have htbl := h.tbl
  rw [hidle] at htbl
  rcases htbl.popHead_cases with ⟨hq, hpop⟩ | ⟨e, _, he, hstate, ⟨_, hpop, hok⟩ | ⟨hpop, hok⟩⟩
  · rw [hpop]
    rw [hq] at htbl
    exact { h with tbl := by rw [hidle, hq]; exact htbl.clear, lsnBound := Nat.zero_le _ }
  · rw [hpop]
    exact h.setState he (by simp [hstate]) (hidle ▸ hok) (h.bound e he) (by simp)
  · rw [hpop]
    exact h.setState he (by simp [hstate]) hok h.lsnBound (by simp)

/-- The worker always goes on. -/
theorem workerStep : ∃ b', b.workerStep = some b' ∧ b'.Good := by
  unfold Books.workerStep
  have htbl := h.tbl
  cases hw : b.worker with
  | idle =>
    simp only [h.releaseFinished_eq hw]
    exact ⟨_, rfl, (h.releaseFinished hw).popHead hw⟩
  | getting l =>
    rw [hw] at htbl
    obtain ⟨e, he, rfl, hstate, hok⟩ := htbl.getting_setState
    refine ⟨_, rfl, ?_⟩
    simp only [State.workerStep, hw]
    refine h.setState he (by simp [hstate]) hok h.lsnBound fun tag => ?_
    by_cases htag : tag = e.lock.tag
    · simp [htag]
    · simp [htag, Ne.symm htag]
  | got l =>
    rw [hw] at htbl
    obtain ⟨e, he, rfl, hstate, hlsn⟩ := htbl.got_lsn
    refine ⟨_, rfl, ?_⟩
    simp only [State.workerStep, hw, hlsn]
    exact { h with tbl := htbl.publish he hstate, lsnBound := h.bound e he }

theorem markFinished (p : Nat → Bool) : Good { b with toState := b.markFinished p } :=
  { h with
    xact := h.xact.mark p
    lists := fun y hy => by
      obtain ⟨x, hx, rfl⟩ := mem_map.mp hy
      split <;> exact h.lists x hx }

theorem lists_add (new : Entry) :
    ∀ x ∈ b.enterXact new.lock, x.locks = locksOf (b.lockTbl ++ [new]) x.xid := by
  have hother : ∀ x ∈ b.xactTbl, x.xid ≠ new.lock.xid →
      x.locks = locksOf (b.lockTbl ++ [new]) x.xid := by
    intro x hx hne
    rw [h.lists x hx]
    simp [locksOf, Ne.symm hne]
  intro y hy
  by_cases hex : ∃ x ∈ b.xactTbl, x.xid = new.lock.xid
  · obtain ⟨x, hx, hxid⟩ := hex
    rw [Inv.enterXact_found hx hxid] at hy
    obtain ⟨z, hz, rfl⟩ := mem_map.mp hy
    split
    · next heq => simp [h.lists z hz, locksOf, heq]
    · next hne => exact hother z hz hne
  · have hnone : ∀ x ∈ b.xactTbl, x.xid ≠ new.lock.xid := fun x hx hxid => hex ⟨x, hx, hxid⟩
    rw [Inv.enterXact_new hnone] at hy
    rcases mem_append.mp hy with hy | hy
    · exact hother y hy (hnone y hy)
    · have hnil : b.lockTbl.filter (·.lock.xid = new.lock.xid) = [] := by
        refine filter_eq_nil_iff.mpr fun e he heq => ?_
        obtain ⟨x, hx, hxid, _⟩ := h.xact.entry e he
        exact hnone x hx (hxid.trans (of_decide_eq_true heq))
      simp [mem_singleton.mp hy, locksOf, hnil]

theorem add {l : Lock} {lsn lastLsn : Nat} (hok : b.Ok (.add l lsn lastLsn)) :
    Good { b with toState := b.addAsyncLock l lsn lastLsn, lastAdd := lsn } := by
  obtain ⟨hle, hpos, hlast⟩ := hok
  have hbound : ∀ a ∈ b.lockTbl, a.lsn ≤ lsn := fun a ha => (h.bound a ha).trans hle
  unfold State.addAsyncLock
  cases hfind : b.findLock l with
  | some e => exact { h with bound := hbound, lsnBound := h.lsnBound.trans hle }
  | none =>
    obtain ⟨htbl, hxact, hbound, hlsn⟩ := Inv.tables_add h.tbl h.xact hfind hbound
      (h.lsnBound.trans hle) hpos hlast
    refine ⟨htbl, hxact, h.lists_add ⟨l, lsn, .idle⟩, hbound, hlsn, ?_⟩
    funext tag
    simp [h.held, gotCount]

theorem step {call : Call} (hok : b.Ok call) (hs : b.step call = some b') : b'.Good := by
  cases call with
  | add l lsn lastLsn =>
    cases hs
    exact h.add hok
  | release xid =>
    cases hs
    split
    · exact h.markFinished _
    · exact h.markFinished _
  | releaseOld oldxid prepared =>
    cases hs
    exact h.markFinished _
  | finish xid =>
    cases hs
    exact { h with }
  | worker =>
    obtain ⟨b₁, hb₁, hgood⟩ := h.workerStep
    obtain rfl : b₁ = b' := Option.some.inj (hb₁.symm.trans hs)
    exact hgood

end

end Good

/-- What the tables and the heavyweight locks have to do with each other. -/
structure Kept (b : Books) : Prop where
  queue : b.queue = (b.lockTbl.filter (·.state = .idle)).map Entry.lock
  order : (b.lockTbl.filter (·.state = .idle)).Pairwise (·.lsn ≤ ·.lsn)
  onList : ∀ e ∈ b.lockTbl, ∃! x, x ∈ b.xactTbl ∧ e.lock ∈ x.locks
  lists : ∀ x ∈ b.xactTbl, x.locks = locksOf b.lockTbl x.xid
  lastLock : ∀ x ∈ b.xactTbl, x.locks.getLast? = some x.lastLock
  held : ∀ tag, b.held tag = gotCount b.lockTbl tag
  /-- A pass of the worker removes the entries of the finished transactions, and releases those of
  them once that are got. -/
  pass : b.worker = .idle → ∃ b', b.workerStep = some b' ∧
    (∀ l, l ∈ b'.lockTbl.map Entry.lock ↔ l ∈ b.lockTbl.map Entry.lock ∧ ¬ b.Finished l) ∧
    ∃ ls : List Lock, ls.Nodup ∧ b'.released = b.released ++ ls ∧
      ∀ l, l ∈ ls ↔ (∃ e ∈ b.lockTbl, e.lock = l ∧ e.state = .got) ∧ b.Finished l

/-- The invariant says what the worker keeps. -/
theorem Good.kept (h : b.Good) : b.Kept where
  queue := h.tbl.queue
  order := (h.tbl.order.sublist filter_sublist).imp fun hab => hab.1
  onList e he := by
    obtain ⟨x, hx, _, hl⟩ := h.xact.entry e he
    refine ⟨x, ⟨hx, hl⟩, fun y ⟨hy, hl'⟩ => h.xact.eq_of_xid hy hx ?_⟩
    rw [← h.xact.locks y hy _ hl', h.xact.locks x hx _ hl]
  lists := h.lists
  lastLock x hx := by
    obtain ⟨pre, e, post, heq, hlock, hxid, hpost⟩ := h.xact.last x hx
    have hnil : post.filter (·.lock.xid = x.xid) = [] :=
      filter_eq_nil_iff.mpr fun a ha => by simpa using hpost a ha
    rw [h.lists x hx, locksOf, heq, filter_append, filter_cons_of_pos (by simp [hlock, hxid]),
      hnil]
    simp [hlock]
  held := congrFun h.held
  pass hidle := by
    have hstep : b.workerStep = (b.releaseFinished).map fun b => { b with toState := b.popHead } := by
      rw [Books.workerStep, hidle]
    rw [hstep, h.releaseFinished_eq hidle]
    refine ⟨_, rfl, fun l => ?_, b.finishedLocks.filter b.isGot, h.finishedLocks_nodup.filter _, rfl,
      fun l => ?_⟩
    · rw [popHead_locks]
      simp only [without, mem_map, mem_filter, decide_eq_true_eq, h.mem_finishedLocks]
      constructor
      · rintro ⟨e, ⟨he, hkeep⟩, rfl⟩
        exact ⟨⟨e, he, rfl⟩, fun hfin => hkeep ⟨⟨e, he, rfl⟩, hfin⟩⟩
      · rintro ⟨⟨e, he, rfl⟩, hfin⟩
        exact ⟨e, ⟨he, fun hgone => hfin hgone.2⟩, rfl⟩
    · rw [mem_filter, h.mem_finishedLocks]
      constructor
      · rintro ⟨⟨⟨e, he, rfl⟩, hfin⟩, hgot⟩
        rw [isGot, show b.findLock e.lock = some e from h.tbl.find_eq he] at hgot
        exact ⟨⟨e, he, rfl, of_decide_eq_true hgot⟩, hfin⟩
      · rintro ⟨⟨e, he, rfl, hgot⟩, hfin⟩
        refine ⟨⟨⟨e, he, rfl⟩, hfin⟩, ?_⟩
        rw [isGot, show b.findLock e.lock = some e from h.tbl.find_eq he]
        exact decide_eq_true hgot

/-- In every interleaving of the calls with the steps of the worker the books are kept. -/
theorem worker_books_kept (wal : Wal) (b : Books) (run : Reaches step Ok (init wal) b) : b.Kept :=
  (run.invariant Good (.init wal) fun _ _ _ h hok hs => h.step hok hs).kept

/-- A transaction is finished while the worker waits for the first of its two locks. -/
def finishWhileGetting : List Call :=
  [.add ⟨7, 1, 5⟩ 20 10, .worker, .add ⟨7, 1, 6⟩ 30 20, .release 7, .worker, .worker]

/-- The transaction ends while the worker acquires its first lock. -/
theorem worker_books_kept_finish : ∃ b, Reaches step Ok (init (locksWal [])) b ∧ b.Kept ∧
    b.worker = .idle ∧ b.lockTbl = [⟨⟨7, 1, 5⟩, 20, .got⟩, ⟨⟨7, 1, 6⟩, 30, .idle⟩] ∧
      b.held (1, 5) = 1 ∧ b.Finished ⟨7, 1, 6⟩ := by
  obtain ⟨b, run, hworker, htbl, hheld, hxact⟩ := exists_reaches_tested step Ok (init (locksWal []))
    finishWhileGetting (fun b => b.worker = .idle ∧
      b.lockTbl = [⟨⟨7, 1, 5⟩, 20, .got⟩, ⟨⟨7, 1, 6⟩, 30, .idle⟩] ∧ b.held (1, 5) = 1 ∧
      b.xactTbl = [⟨7, false, [⟨7, 1, 5⟩, ⟨7, 1, 6⟩], ⟨7, 1, 6⟩⟩]) (by decide +kernel)
  exact ⟨b, run, worker_books_kept _ b run, hworker, htbl, hheld, _,
    hxact ▸ mem_singleton.mpr rfl, rfl, rfl⟩

end Books

end Polar.LockReplay
