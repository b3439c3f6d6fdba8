import Polar.SplitRead.Tree

/-!
# The invariant of the transaction

A tuple that a member has changed has an older command id, or the member is one of those that have
written with the current one. A command writes in the subtransaction that it has started in, or
above it; between commands those that have written with the current id are no longer live.
-/

namespace Polar.SplitRead

open List

/-- The levels below the one that the command has started in. -/
def outer (base : Nat) (levels : List Level) : List Level := levels.drop (levels.length - base)

theorem outer_cons {base : Nat} {levels : List Level} (l : Level) (h : base ≤ levels.length) :
    outer base (l :: levels) = outer base levels := by
  unfold outer
  rw [length_cons, Nat.succ_sub h, drop_succ_cons]

theorem outer_length (levels : List Level) : outer levels.length levels = levels := by
  simp [outer]

/-- No live id of the levels has written with the current command id. -/
def Quiet (writers : List Nat) (levels : List Level) : Prop :=
  ∀ l ∈ levels, l.aborted = false → ∀ f ∈ l.fulls, f ∉ writers

/-- The levels in which nothing has been written with the current command id. -/
def quietLevels (command : Option Nat) (levels : List Level) : List Level :=
  match command with
  | none => levels
  | some base => outer base levels

theorem Quiet.mono {writers : List Nat} {levels levels' : List Level} (h : Quiet writers levels)
    (hsub : ∀ l ∈ levels', l ∈ levels) : Quiet writers levels' :=
  fun l hl => h l (hsub l hl)

/-- An aborted level is quiet. -/
theorem Quiet.cons_aborted {writers : List Nat} {levels : List Level} {l : Level}
    (h : Quiet writers levels) (haborted : l.aborted = true) : Quiet writers (l :: levels) := by
  intro p hp hlive
  rcases mem_cons.mp hp with rfl | hrest
  · rw [haborted] at hlive
    cases hlive
  · exact h p hrest hlive

theorem Quiet.nil (levels : List Level) : Quiet [] levels :=
  fun _ _ _ _ _ hf => not_mem_nil hf

/-- What the members of the tree have done to a tuple. -/
structure TupleOk (members writers : List Nat) (commandId : Nat) (committed : Nat → Bool)
    (tup : Header) : Prop where
  inserter : ∀ m ∈ members, tup.xmin = xidFromFull m →
    tup.cmin < commandId ∨ m ∈ writers ∧ tup.cmin = commandId
  deleter : ∀ m ∈ members, tup.deleter = some (xidFromFull m) →
    tup.cmax < commandId ∨ m ∈ writers ∧ tup.cmax = commandId
  /-- What a member has deleted was there. -/
  deleted : ∀ m ∈ members, tup.deleter = some (xidFromFull m) →
    tup.xmin ∈ members.map xidFromFull ∨ committed tup.xmin = true
  /-- Other transactions do not see the tuples of the tree. -/
  foreign : ∀ x, tup.deleter = some x →
    x ∈ members.map xidFromFull ∨ tup.xmin ∉ members.map xidFromFull

/-- What every run keeps of a transaction. -/
structure Inv (s : State) : Prop where
  tree : TreeOk s.levels s.members s.nextFull
  writers_mem : ∀ w ∈ s.writers, w ∈ s.members
  unused : s.currentCommandIdUsed = false → s.writers = []
  base_lt : ∀ base, s.command = some base → base < s.levels.length
  quiet : Quiet s.writers (quietLevels s.command s.levels)
  uncommitted : ∀ m ∈ s.members, ∀ c ∈ s.commits, c.1 ≠ xidFromFull m
  session : s.sessionLsn ≤ s.wal
  heap : ∀ tup ∈ s.heap,
    TupleOk s.members s.writers s.currentCommandId (s.committedBy s.sessionLsn) tup

theorem inv_init (nextFull wal : Nat) (commits : List (Nat × Nat)) :
    Inv (State.init nextFull wal commits) where
  tree := by
    refine ⟨⟨fun _ => rfl, fun _ => by simp, trivial⟩, List.Pairwise.nil, ?_, ?_, ?_, ?_,
      ⟨_, rfl, rfl⟩⟩ <;> simp [spine, State.init, Level.fulls]
  writers_mem := by simp [State.init]
  unused _ := rfl
  base_lt _ h := by cases h
  quiet := Quiet.nil _
  uncommitted := by simp [State.init]
  session := Nat.zero_le _
  heap := by simp [State.init]

/-! ## Commits -/

namespace State

variable {s : State}

theorem committedBy_iff {lsn xid : Nat} :
    s.committedBy lsn xid = true ↔ ∃ c ∈ s.commits, c.1 = xid ∧ c.2 ≤ lsn := by
  simp [committedBy]

theorem committedBy_mono {lsn lsn' xid : Nat} (hle : lsn ≤ lsn')
    (h : s.committedBy lsn xid = true) :
    s.committedBy lsn' xid = true := by
  obtain ⟨c, hc, hxid, hlsn⟩ := committedBy_iff.mp h
  exact committedBy_iff.mpr ⟨c, hc, hxid, hlsn.trans hle⟩

theorem current?_eq_some {l : Level} (h : s.current? = some l) :
    ∃ rest, s.levels = l :: rest ∧ l.aborted = false := by
  unfold current? at h
  split at h
  · next l' rest hlevels =>
    split at h
    · cases h
    · next hlive =>
      cases h
      exact ⟨rest, hlevels, by simpa using hlive⟩
  · cases h

theorem writer?_eq_some {full : Nat} (h : s.writer? = some full) :
    ∃ base l rest, s.command = some base ∧ s.levels = l :: rest ∧
      l.fullTransactionId = some full := by
  unfold writer? at h
  split at h
  · next hcommand =>
    obtain ⟨base, hbase⟩ := Option.isSome_iff_exists.mp hcommand
    obtain ⟨l, hl, hfull⟩ := Option.bind_eq_some_iff.mp h
    obtain ⟨rest, hlevels, -⟩ := current?_eq_some hl
    exact ⟨base, l, rest, hbase, hlevels, hfull⟩
  · cases h

theorem mayPop_iff :
    s.mayPop = true ↔ ∀ base, s.command = some base → base + 1 < s.levels.length := by
  unfold mayPop
  cases s.command <;> simp

end State

namespace TupleOk

variable {members writers : List Nat} {commandId : Nat} {committed : Nat → Bool} {tup : Header}

section

variable (h : TupleOk members writers commandId committed tup)
include h

/-- More members may have written, and more transactions may have committed. -/
theorem mono {writers' : List Nat}
    {committed' : Nat → Bool} (hwriters : ∀ w ∈ writers, w ∈ writers')
    (hcommitted : ∀ x, committed x = true → committed' x = true) :
    TupleOk members writers' commandId committed' tup where
  inserter m hm hxmin := (h.inserter m hm hxmin).imp_right (.imp_left (hwriters m))
  deleter m hm hdel := (h.deleter m hm hdel).imp_right (.imp_left (hwriters m))
  deleted m hm hdel := (h.deleted m hm hdel).imp_right (hcommitted _)
  foreign := h.foreign

/-- The next command id is larger. -/
theorem increment : TupleOk members [] (commandId + 1) committed tup where
  inserter m hm hxmin := by
    have := h.inserter m hm hxmin
    omega
  deleter m hm hdel := by
    have := h.deleter m hm hdel
    omega
  deleted := h.deleted
  foreign := h.foreign

/-- A member that no tuple mentions. -/
theorem assign {full : Nat}
    (hxmin : tup.xmin ≠ xidFromFull full) (hdel : tup.deleter ≠ some (xidFromFull full)) :
    TupleOk (full :: members) writers commandId committed tup where
  inserter m hm heq := by
    rcases mem_cons.mp hm with rfl | hold
    · exact absurd heq hxmin
    · exact h.inserter m hold heq
  deleter m hm heq := by
    rcases mem_cons.mp hm with rfl | hold
    · exact absurd heq hdel
    · exact h.deleter m hold heq
  deleted m hm heq := by
    rcases mem_cons.mp hm with rfl | hold
    · exact absurd heq hdel
    · exact (h.deleted m hold heq).imp_left (mem_cons_of_mem _)
  foreign x hx := by
    refine (h.foreign x hx).imp (mem_cons_of_mem _) fun hnot hmem => ?_
    rcases mem_cons.mp hmem with heq | hold
    · exact hxmin heq
    · exact hnot hold

/-- The deleter does not change. -/
theorem of_deleter_eq {tup' : Header}
    (hxmin : tup'.xmin = tup.xmin) (hcmin : tup'.cmin = tup.cmin) (hcmax : tup'.cmax = tup.cmax)
    (hdel : tup'.deleter = tup.deleter) : TupleOk members writers commandId committed tup' where
  inserter := by rw [hxmin, hcmin]; exact h.inserter
  deleter := by rw [hdel, hcmax]; exact h.deleter
  deleted := by rw [hdel, hxmin]; exact h.deleted
  foreign := by rw [hdel, hxmin]; exact h.foreign

end

/-- A tuple that nobody has deleted. -/
theorem of_deleter_none (hinserter : ∀ m ∈ members, tup.xmin = xidFromFull m →
      tup.cmin < commandId ∨ m ∈ writers ∧ tup.cmin = commandId) (hdel : tup.deleter = none) :
    TupleOk members writers commandId committed tup where
  inserter := hinserter
  deleter m _ h := by rw [hdel] at h; cases h
  deleted m _ h := by rw [hdel] at h; cases h
  foreign x h := by rw [hdel] at h; cases h

end TupleOk

end Polar.SplitRead
