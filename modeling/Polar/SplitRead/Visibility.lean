import Polar.SplitRead.Xid

/-!
# `HeapTupleSatisfiesMVCC`

The header of a tuple, what a process knows of transactions, and the answer for a snapshot. The bits
of tuples that were moved before 9.0 are left out: no command sets them.
-/

namespace Polar.SplitRead

/-- What the header of a tuple says, with the command ids that `HeapTupleHeaderGetCmin` and
`HeapTupleHeaderGetCmax` give. -/
structure Header where
  xmin : Nat
  cmin : Nat
  xmax : Nat
  cmax : Nat
  /-- The update xid of a multixact. -/
  updateXid : Nat
  xmaxIsMulti : Bool
  xmaxLockedOnly : Bool
  deriving DecidableEq

/-- The hint bits of a header. -/
structure Hints where
  xminCommitted : Bool
  xminInvalid : Bool
  xmaxCommitted : Bool
  xmaxInvalid : Bool
  deriving DecidableEq

/-- What the process knows when it looks at the tuple with its snapshot. -/
structure Env where
  /-- `TransactionIdIsCurrentTransactionId`. -/
  isCurrent : Nat → Bool
  /-- `snapshot->curcid`. -/
  curcid : Nat
  /-- `polar_csn_enable`. -/
  csn : Bool
  /-- `XidInMVCCSnapshot`. -/
  inSnapshot : Nat → Bool
  /-- `TransactionIdDidCommit`. -/
  didCommit : Nat → Bool
  /-- `XidVisibleInSnapshotCSN`. -/
  visibleCSN : Nat → Bool
  /-- `CommittedXidVisibleInSnapshotCSN`. -/
  committedVisibleCSN : Nat → Bool

namespace Env

variable (env : Env)

/-- The transaction has committed, as far as the snapshot goes. -/
def sees (xid : Nat) : Bool :=
  if env.csn then env.visibleCSN xid else !env.inSnapshot xid && env.didCommit xid

/-- The same for a transaction that is known to have committed. -/
def seesCommitted (xid : Nat) : Bool :=
  if env.csn then env.committedVisibleCSN xid else !env.inSnapshot xid

variable (tup : Header)

/-- The part about the deleter, once the inserter is visible and is another transaction. -/
def notDeleted (hints : Hints) : Bool :=
  if hints.xmaxInvalid then true
  else if tup.xmaxLockedOnly then true
  else if tup.xmaxIsMulti then
    if env.isCurrent tup.updateXid then decide (env.curcid ≤ tup.cmax)
    else !env.sees tup.updateXid
  else if hints.xmaxCommitted then !env.seesCommitted tup.xmax
  else if env.isCurrent tup.xmax then decide (env.curcid ≤ tup.cmax)
  else !env.sees tup.xmax

/-- The part about the deleter of a tuple that the transaction has inserted itself. -/
def notDeletedOwn (hints : Hints) : Bool :=
  if hints.xmaxInvalid then true
  else if tup.xmaxLockedOnly then true
  else if tup.xmaxIsMulti then
    if !env.isCurrent tup.updateXid then true else decide (env.curcid ≤ tup.cmax)
  else if !env.isCurrent tup.xmax then true
  else decide (env.curcid ≤ tup.cmax)

/-- `HeapTupleSatisfiesMVCC`. -/
def satisfiesMVCC (hints : Hints) : Bool :=
  if !hints.xminCommitted then
    if hints.xminInvalid then false
    else if env.isCurrent tup.xmin then
      if env.curcid ≤ tup.cmin then false else env.notDeletedOwn tup hints
    else if !env.sees tup.xmin then false
    else env.notDeleted tup hints
  -- A frozen tuple has both bits.
  else if !hints.xminInvalid && !env.seesCommitted tup.xmin then false
  else env.notDeleted tup hints

end Env

/-- The transaction that deleted the tuple, or updated it. -/
def Header.deleter (tup : Header) : Option Nat :=
  if tup.xmaxLockedOnly then none
  else if tup.xmaxIsMulti then some tup.updateXid
  else if tup.xmax = 0 then none
  else some tup.xmax

/-- The hint bits tell the truth about committed transactions and about aborted ones, that is
transactions that are neither current nor committed. -/
structure Hints.Sound (committed : Nat → Bool) (isCurrent : Nat → Bool) (tup : Header)
    (hints : Hints) : Prop where
  xminCommitted : hints.xminCommitted = true → committed tup.xmin = true
  xminInvalid : hints.xminInvalid = true → hints.xminCommitted = false →
    isCurrent tup.xmin = false ∧ committed tup.xmin = false
  xmaxCommitted : hints.xmaxCommitted = true → committed tup.xmax = true
  xmaxInvalid : hints.xmaxInvalid = true → ∀ x, tup.deleter = some x →
    isCurrent x = false ∧ committed x = false
  /-- A tuple that nothing has deleted says so. -/
  no_xmax : tup.xmax = 0 → tup.xmaxIsMulti = false → hints.xmaxInvalid = true

/-- What the process knows is that these transactions have committed; of the others it may know that
they are running, or that they have aborted. -/
structure Env.Knows (env : Env) (committed : Nat → Bool) : Prop where
  sees : ∀ x, env.sees x = committed x
  seesCommitted : ∀ x, committed x = true → env.seesCommitted x = true

/-- A tuple that is deleted, if at all, by a transaction that has not committed, and that the
current transaction has changed before the command only. -/
structure Settled (isCurrent committed : Nat → Bool) (tup : Header) (curcid : Nat) : Prop where
  deleter : ∀ x, tup.deleter = some x → committed x = false
  cmin : isCurrent tup.xmin = true → tup.cmin < curcid
  cmax : ∀ x, tup.deleter = some x → isCurrent x = true → tup.cmax < curcid

/-- The answer: what a current member or another transaction has inserted is visible unless a
current member has deleted it. -/
def ownAnswer (isCurrent committed : Nat → Bool) (tup : Header) : Bool :=
  (isCurrent tup.xmin || committed tup.xmin) && !tup.deleter.any isCurrent

namespace Env

variable {env : Env} {committed : Nat → Bool} {tup : Header} {hints : Hints}

/-- A test of the command id alone decides for a current deleter. -/
theorem not_deleted_of_settled (hsettled : Settled env.isCurrent committed tup env.curcid) {x : Nat}
    (hdel : tup.deleter = some x) (hcur : env.isCurrent x = true) :
    decide (env.curcid ≤ tup.cmax) = false := by
  have hlt := hsettled.cmax x hdel hcur
  simp [hlt]

section

variable (hsound : hints.Sound committed env.isCurrent tup)
include hsound

/-- The hint that the deleter has aborted. -/
theorem deleter_of_xmaxInvalid
    (hinvalid : hints.xmaxInvalid = true) : tup.deleter.any env.isCurrent = false := by
  cases hdel : tup.deleter with
  | none => rfl
  | some x => simp [(hsound.xmaxInvalid hinvalid x hdel).1]

/-- The deleter that is tested when the hint bits decide nothing. -/
theorem deleter_eq (hinvalid : ¬ hints.xmaxInvalid) (hlocked : ¬ tup.xmaxLockedOnly) :
    tup.deleter = some (if tup.xmaxIsMulti then tup.updateXid else tup.xmax) := by
  cases hmulti : tup.xmaxIsMulti
  · have hmax : tup.xmax ≠ 0 := fun hzero => hinvalid (hsound.no_xmax hzero hmulti)
    simp [Header.deleter, hlocked, hmulti, hmax]
  · simp [Header.deleter, hlocked, hmulti]

theorem notDeletedOwn_eq (hsettled : Settled env.isCurrent committed tup env.curcid) :
    env.notDeletedOwn tup hints = !tup.deleter.any env.isCurrent := by
  have htest {x : Nat} (hdel : tup.deleter = some x) :
      (if !env.isCurrent x then true else decide (env.curcid ≤ tup.cmax)) =
        !tup.deleter.any env.isCurrent := by
    cases hcur : env.isCurrent x with
    | false => simp [hdel, hcur]
    | true => simp [hdel, hcur, not_deleted_of_settled hsettled hdel hcur]
  unfold notDeletedOwn
  split
  · next hinvalid => rw [deleter_of_xmaxInvalid hsound hinvalid]; rfl
  · next hinvalid =>
    split
    · next hlocked => simp [Header.deleter, hlocked]
    · next hlocked =>
      have hdel := deleter_eq hsound hinvalid hlocked
      split at hdel
      · next hmulti => rw [if_pos hmulti, htest hdel]
      · next hmulti => rw [if_neg hmulti, htest hdel]

end

theorem notDeleted_eq (hknows : env.Knows committed)
    (hsound : hints.Sound committed env.isCurrent tup)
    (hsettled : Settled env.isCurrent committed tup env.curcid) :
    env.notDeleted tup hints = !tup.deleter.any env.isCurrent := by
  have htest {x : Nat} (hdel : tup.deleter = some x) :
      (if env.isCurrent x then decide (env.curcid ≤ tup.cmax) else !env.sees x) =
        !tup.deleter.any env.isCurrent := by
    have hsees : env.sees x = false := (hknows.sees _).trans (hsettled.deleter _ hdel)
    cases hcur : env.isCurrent x with
    | false => simp [hdel, hcur, hsees]
    | true => simp [hdel, hcur, not_deleted_of_settled hsettled hdel hcur]
  unfold notDeleted
  split
  · next hinvalid => rw [deleter_of_xmaxInvalid hsound hinvalid]; rfl
  · next hinvalid =>
    split
    · next hlocked => simp [Header.deleter, hlocked]
    · next hlocked =>
      have hdel := deleter_eq hsound hinvalid hlocked
      split at hdel
      · next hmulti => rw [if_pos hmulti, htest hdel]
      · next hmulti =>
        rw [if_neg hmulti, htest hdel]
        split
        · next hcommitted =>
          have hnot := hsettled.deleter _ hdel
          rw [hsound.xmaxCommitted hcommitted] at hnot
          cases hnot
        · rfl

/-- The function gives the answer. -/
theorem satisfiesMVCC_eq (hknows : env.Knows committed)
    (hsound : hints.Sound committed env.isCurrent tup)
    (hsettled : Settled env.isCurrent committed tup env.curcid) :
    env.satisfiesMVCC tup hints = ownAnswer env.isCurrent committed tup := by
  have hnotDeleted := notDeleted_eq hknows hsound hsettled
  unfold satisfiesMVCC ownAnswer
  split
  · next hcommitted =>
    have hcommitted : hints.xminCommitted = false := by simpa using hcommitted
    split
    · next hinvalid =>
      obtain ⟨hcur, hnot⟩ := hsound.xminInvalid hinvalid hcommitted
      simp [hcur, hnot]
    · split
      · next hcur =>
        rw [if_neg (Nat.not_le_of_lt (hsettled.cmin hcur)), notDeletedOwn_eq hsound hsettled]
        simp [hcur]
      · next hcur =>
        rw [hknows.sees]
        cases hc : committed tup.xmin <;> simp [hcur, hnotDeleted]
  · next hcommitted =>
    have hyes : committed tup.xmin = true := hsound.xminCommitted (by simpa using hcommitted)
    rw [hknows.seesCommitted _ hyes, hnotDeleted]
    simp [hyes]

end Env

end Polar.SplitRead
