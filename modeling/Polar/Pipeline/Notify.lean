import Mathlib.Tactic.GCongr
import Mathlib.Tactic.Ring
import Polar.Base.Run

/-!
# Flush notifications

Backends wait in `polar_wal_pipeline_commit_wait` on the flush event that their LSN maps to;
notifiers run `polar_wal_pipeline_notify` passes over the range between their last position and
the flush position and broadcast the events of the slots they serve.
-/

namespace Polar.Pipeline.Notify

open List Function

/-- The mode, and the sizes of the slots. -/
structure Config where
  mode : Nat
  /-- The slot size and the array size are powers of two. -/
  slotBits : Nat
  arrayBits : Nat
  /-- `polar_wal_pipeline_notify_worker_num`. -/
  workers : Nat
  workers_pos : 0 < workers

namespace Config

variable (c : Config)

def slotSize : Nat := 2 ^ c.slotBits

/-- `polar_wal_pipeline_flush_event_get_slot_no`. -/
def slotNo (lsn : Nat) : Nat := (lsn - 1) / c.slotSize &&& (2 ^ c.arrayBits - 1)

/-- The end of a pass rounded up to a slot boundary. -/
def alignedEnd (endLsn : Nat) : Nat := (endLsn + c.slotSize - 1) / c.slotSize * c.slotSize

/-- The notifiers: the main thread, as the first one, in mode 1, else one for each worker. -/
def notifiers : List Nat := if c.mode = 1 then [0] else range c.workers

/-- The notifier serves the slot of `lsn`. -/
def Serves (n lsn : Nat) : Prop := c.slotNo lsn % c.workers = n

instance (n lsn : Nat) : Decidable (c.Serves n lsn) := inferInstanceAs (Decidable (_ = _))

end Config

/-- Where a backend is in `polar_wal_pipeline_commit_wait`; `flush` is its `LogwrtResult.Flush`. -/
inductive Waiter where
  | idle
  | spin (lsn flush : Nat)
  /-- Holds the mutex of its event. -/
  | held (lsn flush : Nat)
  | blocked (lsn : Nat)
  /-- Released by a broadcast; about to take the mutex again. -/
  | woken (lsn : Nat)
  deriving DecidableEq, Repr

/-- Where a notifier is: between passes, or in the loop of a pass to `endLsn`. -/
inductive Notifier where
  | idle
  | pass (startLsn endLsn : Nat)
  deriving DecidableEq, Repr

/-- The flush position, the notifiers and the waiters. -/
structure State where
  logFlushResult : Nat
  lastNotify : Nat → Nat
  notifier : Nat → Notifier
  waiters : List Waiter

/-- One step of a waiter or of a notifier. -/
inductive Op where
  | flush (lsn : Nat)
  | wait (i lsn : Nat)
  /-- A turn of the first spin loop. -/
  | spin (i : Nat)
  /-- The spin is over, or the wait has returned: the waiter takes the mutex. -/
  | lock (i : Nat)
  /-- The test under the mutex: return or block. -/
  | test (i : Nat)
  | spurious (i : Nat)
  | notify (n : Nat)
  deriving Repr

namespace State

/-- No notifier has made its first pass. -/
def init (lsn waiters : Nat) : State :=
  { logFlushResult := lsn, lastNotify := fun _ => 0, notifier := fun _ => .idle,
    waiters := replicate waiters .idle }

variable (c : Config)

/-- The mutex of the slot is free. -/
def mutexFree (s : State) (slot : Nat) : Bool :=
  s.waiters.all fun w => match w with | .held lsn _ => c.slotNo lsn != slot | _ => true

def setWaiter (s : State) (i : Nat) (w : Waiter) : State :=
  { s with waiters := s.waiters.set i w }

/-- `pthread_cond_broadcast` on the event of the slot. -/
def broadcast (s : State) (slot : Nat) : State :=
  { s with waiters := s.waiters.map fun w => match w with
      | .blocked lsn => if c.slotNo lsn = slot then .woken lsn else w
      | _ => w }

def setNotifier (s : State) (n : Nat) (pc : Notifier) : State :=
  { s with notifier := update s.notifier n pc }

def setLastNotify (s : State) (n lsn : Nat) : State :=
  { s with lastNotify := update s.lastNotify n lsn }

/-- A step of `polar_wal_pipeline_notify`. -/
def notifyStep (s : State) (n : Nat) : Option State :=
  match s.notifier n with
  | .idle =>
    if s.lastNotify n = s.logFlushResult then none
    else if s.lastNotify n = 0 then some (s.setLastNotify n s.logFlushResult)
    else some (s.setNotifier n (.pass (s.lastNotify n) s.logFlushResult))
  | .pass startLsn endLsn =>
    if startLsn ≤ c.alignedEnd endLsn then
      if c.Serves n startLsn then
        if s.mutexFree c (c.slotNo startLsn) then
          some ((s.broadcast c (c.slotNo startLsn)).setNotifier n
            (.pass (startLsn + c.slotSize) endLsn))
        else none
      else some (s.setNotifier n (.pass (startLsn + c.slotSize) endLsn))
    else some ((s.setLastNotify n endLsn).setNotifier n .idle)

/-- A step of the system. -/
def step (s : State) : Op → Option State
  | .flush lsn =>
    if s.logFlushResult ≤ lsn then some { s with logFlushResult := lsn } else none
  | .wait i lsn =>
    match s.waiters[i]? with
    | some .idle => some (s.setWaiter i (.spin lsn s.logFlushResult))
    | _ => none
  | .spin i =>
    match s.waiters[i]? with
    | some (.spin lsn flush) =>
      some (s.setWaiter i (if lsn ≤ flush then .idle else .spin lsn s.logFlushResult))
    | _ => none
  | .lock i =>
    match s.waiters[i]? with
    | some (.spin lsn flush) =>
      if flush < lsn ∧ s.mutexFree c (c.slotNo lsn) then
        some (s.setWaiter i (.held lsn flush))
      else none
    | some (.woken lsn) =>
      if s.mutexFree c (c.slotNo lsn) then some (s.setWaiter i (.held lsn s.logFlushResult))
      else none
    | _ => none
  | .test i =>
    match s.waiters[i]? with
    | some (.held lsn flush) =>
      some (s.setWaiter i (if lsn ≤ flush then .idle else .blocked lsn))
    | _ => none
  | .spurious i =>
    match s.waiters[i]? with
    | some (.blocked lsn) => some (s.setWaiter i (.woken lsn))
    | _ => none
  | .notify n => if n ∈ c.notifiers then s.notifyStep c n else none

/-- A backend is blocked for a flushed LSN and no notifier of its slot has a pass to make. -/
def Lost (s : State) : Prop :=
  ∃ lsn, Waiter.blocked lsn ∈ s.waiters ∧ lsn ≤ s.logFlushResult ∧
    ∀ n ∈ c.notifiers, c.Serves n lsn → s.lastNotify n = s.logFlushResult

end State

/-- The waiter is blocked for `lsn`, or is going to block under the mutex. -/
def Waiter.BlocksFor (lsn : Nat) : Waiter → Prop
  | .blocked l => l = lsn
  | .held l flush => l = lsn ∧ flush < lsn
  | _ => False

/-- A waiter that ends its spin takes the mutex before its LSN is flushed, and a notifier makes
its first pass when nobody it serves is blocked for a flushed LSN. -/
def Ok (c : Config) (s : State) : Op → Prop
  | .lock i => ∀ lsn flush, s.waiters[i]? = some (.spin lsn flush) → s.logFlushResult < lsn
  | .notify n => s.lastNotify n = 0 → ∀ w ∈ s.waiters, ∀ lsn, w.BlocksFor lsn →
      c.Serves n lsn → s.logFlushResult < lsn
  | _ => True

instance (w : Waiter) (P : Nat → Prop) [DecidablePred P] :
    Decidable (∀ lsn, w.BlocksFor lsn → P lsn) :=
  match w with
  | .blocked l => decidable_of_iff (P l) (by simp [Waiter.BlocksFor])
  | .held l flush => decidable_of_iff (flush < l → P l) (by simp [Waiter.BlocksFor])
  | .idle | .spin .. | .woken _ => .isTrue fun _ h => h.elim

instance (c : Config) (s : State) : (op : Op) → Decidable (Ok c s op)
  | .lock i =>
    match h : s.waiters[i]? with
    | some (.spin lsn _) => decidable_of_iff (s.logFlushResult < lsn) (by simp [Ok, h])
    | none | some .idle | some (.held ..) | some (.blocked _) | some (.woken _) =>
      .isTrue (by simp [Ok, h])
  | .notify n => inferInstanceAs (Decidable (s.lastNotify n = 0 → ∀ w ∈ s.waiters, ∀ lsn,
      w.BlocksFor lsn → c.Serves n lsn → s.logFlushResult < lsn))
  | .flush _ | .wait .. | .spin _ | .test _ | .spurious _ => .isTrue trivial

section Coverage

variable (c : Config) {startLsn endLsn lsn : Nat}

/-- The turns of a pass over `(startLsn, endLsn]` meet the slot of every LSN in the range. -/
theorem Config.pass_meets (hstart : 0 < startLsn) (hlo : startLsn < lsn) (hhi : lsn ≤ endLsn) :
    ∃ j, startLsn + j * c.slotSize ≤ c.alignedEnd endLsn ∧
      c.slotNo (startLsn + j * c.slotSize) = c.slotNo lsn := by
  have hpos : 0 < c.slotSize := Nat.two_pow_pos _
  -- the slots of the range are numbered by (lsn - 1) / slotSize
  obtain ⟨j, hj⟩ : ∃ j, (lsn - 1) / c.slotSize = (startLsn - 1) / c.slotSize + j :=
    Nat.exists_eq_add_of_le (Nat.div_le_div_right (by omega))
  have hindex : (startLsn + j * c.slotSize - 1) / c.slotSize = (lsn - 1) / c.slotSize := by
    rw [hj, show startLsn + j * c.slotSize - 1 = startLsn - 1 + j * c.slotSize by omega,
      Nat.add_mul_div_right _ _ hpos]
  refine ⟨j, ?_, by simp only [Config.slotNo, hindex]⟩
  have hstart' : startLsn ≤ ((startLsn - 1) / c.slotSize + 1) * c.slotSize := by
    have := Nat.lt_mul_of_div_lt (Nat.lt_add_one ((startLsn - 1) / c.slotSize)) hpos
    omega
  calc startLsn + j * c.slotSize
      ≤ ((startLsn - 1) / c.slotSize + 1) * c.slotSize + j * c.slotSize := by gcongr
    _ = ((lsn - 1) / c.slotSize + 1) * c.slotSize := by rw [hj]; ring
    _ ≤ ((endLsn - 1) / c.slotSize + 1) * c.slotSize := by gcongr
    _ = c.alignedEnd endLsn := by
        rw [Config.alignedEnd, ← Nat.add_div_right _ hpos,
          show endLsn - 1 + c.slotSize = endLsn + c.slotSize - 1 by omega]

end Coverage

/-- The notifier of the slot of `lsn` is still going to broadcast it once `lsn` is flushed. -/
def State.Due (c : Config) (s : State) (lsn : Nat) : Prop :=
  match s.notifier (c.slotNo lsn % c.workers) with
  | .idle => s.lastNotify (c.slotNo lsn % c.workers) < lsn
  | .pass startLsn endLsn =>
    lsn ≤ endLsn → ∃ j, startLsn + j * c.slotSize ≤ c.alignedEnd endLsn ∧
      c.slotNo (startLsn + j * c.slotSize) = c.slotNo lsn

/-- Every waiter that is blocked, or about to block, is still going to be notified. -/
structure Notified (c : Config) (s : State) : Prop where
  last_le : ∀ n, s.lastNotify n ≤ s.logFlushResult
  pass_le : ∀ n startLsn endLsn, s.notifier n = .pass startLsn endLsn →
    s.lastNotify n < endLsn ∧ endLsn ≤ s.logFlushResult
  due : ∀ w ∈ s.waiters, ∀ lsn, w.BlocksFor lsn → s.Due c lsn

namespace Notified

variable {c : Config} {s t : State}

theorem init (lsn waiters : Nat) : Notified c (State.init lsn waiters) where
  last_le := fun _ => Nat.zero_le _
  pass_le := by simp [State.init]
  due := by
    intro w hw l hl
    obtain ⟨_, rfl⟩ := mem_replicate.mp hw
    exact hl.elim

section

variable (h : Notified c s)
include h

/-- An LSN that is not flushed yet is still to be notified. -/
theorem due_of_lt {lsn : Nat} (hlsn : s.logFlushResult < lsn) : s.Due c lsn := by
  unfold State.Due
  split
  · exact (h.last_le _).trans_lt hlsn
  · next hpass => exact fun hle => absurd ((h.pass_le _ _ _ hpass).2) (by omega)

theorem setWaiter {i : Nat} {w : Waiter}
    (hw : ∀ lsn, w.BlocksFor lsn → s.Due c lsn) : Notified c (s.setWaiter i w) := by
  refine ⟨h.last_le, h.pass_le, fun v hv lsn hl => ?_⟩
  obtain hv | rfl := mem_or_eq_of_mem_set hv
  · exact h.due v hv lsn hl
  · exact hw lsn hl

/-- A notifier moves; the waiters it serves are still to be notified. -/
theorem moveNotifier (n last : Nat) (pc : Notifier) (waiters : List Waiter)
    (hlast : last ≤ s.logFlushResult) (hpass : ∀ startLsn endLsn, pc = .pass startLsn endLsn →
      last < endLsn ∧ endLsn ≤ s.logFlushResult)
    (hsub : ∀ w ∈ waiters, ∀ lsn, w.BlocksFor lsn → ∃ v ∈ s.waiters, v.BlocksFor lsn)
    (hdue : ∀ w ∈ waiters, ∀ lsn, w.BlocksFor lsn → c.Serves n lsn →
      ({ s with waiters := waiters }.setLastNotify n last |>.setNotifier n pc).Due c lsn) :
    Notified c ({ s with waiters := waiters }.setLastNotify n last |>.setNotifier n pc) := by
  constructor
  · intro m
    by_cases hm : m = n
    · simpa [State.setNotifier, State.setLastNotify, hm] using hlast
    · simpa [State.setNotifier, State.setLastNotify, hm] using h.last_le m
  · intro m startLsn endLsn hpc
    by_cases hm : m = n
    · subst hm
      simpa [State.setNotifier, State.setLastNotify] using
        hpass startLsn endLsn (by simpa [State.setNotifier] using hpc)
    · simpa [State.setNotifier, State.setLastNotify, hm] using
        h.pass_le m startLsn endLsn (by simpa [State.setNotifier, State.setLastNotify, hm] using hpc)
  · intro w hw lsn hl
    by_cases hn : c.Serves n lsn
    · exact hdue w hw lsn hl hn
    · obtain ⟨v, hv, hvl⟩ := hsub w hw lsn hl
      have := h.due v hv lsn hvl
      have hne : c.slotNo lsn % c.workers ≠ n := hn
      simpa [State.Due, State.setNotifier, State.setLastNotify, hne] using this

theorem firstPass {n : Nat} (hpc : s.notifier n = .idle)
    (hok : ∀ w ∈ s.waiters, ∀ lsn, w.BlocksFor lsn → c.Serves n lsn → s.logFlushResult < lsn) :
    Notified c (s.setLastNotify n s.logFlushResult) := by
  have hmove := h.moveNotifier n s.logFlushResult (s.notifier n) s.waiters (le_refl _)
    (by simp [hpc]) (fun w hw lsn hl => ⟨w, hw, hl⟩) ?_
  · simpa [State.setNotifier, State.setLastNotify] using hmove
  · intro w hw lsn hl hn
    have hlt := hok w hw lsn hl hn
    obtain rfl : c.slotNo lsn % c.workers = n := hn
    simpa [State.Due, State.setNotifier, State.setLastNotify, hpc] using hlt

theorem beginPass {n : Nat} (hpc : s.notifier n = .idle)
    (hne : s.lastNotify n ≠ s.logFlushResult) (hpos : s.lastNotify n ≠ 0) :
    Notified c (s.setNotifier n (.pass (s.lastNotify n) s.logFlushResult)) := by
  have hlast := h.last_le n
  have hmove := h.moveNotifier n (s.lastNotify n)
    (.pass (s.lastNotify n) s.logFlushResult) s.waiters hlast ?_
    (fun w hw lsn hl => ⟨w, hw, hl⟩) ?_
  · simpa [State.setNotifier, State.setLastNotify] using hmove
  · intro startLsn endLsn heq
    obtain ⟨rfl, rfl⟩ := Notifier.pass.inj heq
    omega
  · intro w hw lsn hl hn
    have hdue := h.due w hw lsn hl
    obtain rfl : c.slotNo lsn % c.workers = n := hn
    simp only [State.Due, hpc] at hdue
    simp only [State.Due, State.setNotifier, update_self]
    exact c.pass_meets (Nat.pos_of_ne_zero hpos) hdue

/-- A turn of a pass leaves the slots it does not meet to the following turns. -/
theorem nextTurn {n startLsn endLsn : Nat} {waiters : List Waiter}
    (hpc : s.notifier n = .pass startLsn endLsn)
    (hsub : ∀ w ∈ waiters, ∀ lsn, w.BlocksFor lsn → ∃ v ∈ s.waiters, v.BlocksFor lsn)
    (hother : ∀ w ∈ waiters, ∀ lsn, w.BlocksFor lsn → c.Serves n lsn →
      c.slotNo startLsn ≠ c.slotNo lsn) :
    Notified c ({ s with waiters := waiters }.setNotifier n
      (.pass (startLsn + c.slotSize) endLsn)) := by
  have hmove := h.moveNotifier n (s.lastNotify n) (.pass (startLsn + c.slotSize) endLsn) waiters
    (h.last_le n) ?_ hsub ?_
  · simpa [State.setNotifier, State.setLastNotify] using hmove
  · intro startLsn' endLsn' heq
    obtain ⟨rfl, rfl⟩ := Notifier.pass.inj heq
    exact h.pass_le n _ _ hpc
  · intro w hw lsn hl hn
    obtain ⟨v, hv, hvl⟩ := hsub w hw lsn hl
    have hdue := h.due v hv lsn hvl
    have hne := hother w hw lsn hl hn
    obtain rfl : c.slotNo lsn % c.workers = n := hn
    simp only [State.Due, hpc] at hdue
    simp only [State.Due, State.setNotifier, update_self]
    intro hle
    obtain ⟨j, hj, hslot⟩ := hdue hle
    cases j with
    | zero => exact absurd (by simpa using hslot) hne
    | succ j =>
      have harith : startLsn + (j + 1) * c.slotSize =
          startLsn + c.slotSize + j * c.slotSize := by ring
      rw [harith] at hj hslot
      exact ⟨j, hj, hslot⟩

/-- A pass ends: no slot is left. -/
theorem endPass {n startLsn endLsn : Nat}
    (hpc : s.notifier n = .pass startLsn endLsn) (hdone : ¬ startLsn ≤ c.alignedEnd endLsn) :
    Notified c ((s.setLastNotify n endLsn).setNotifier n .idle) := by
  refine h.moveNotifier n endLsn .idle s.waiters (h.pass_le n _ _ hpc).2 (by simp)
     (fun w hw lsn hl => ⟨w, hw, hl⟩) ?_
  intro w hw lsn hl hn
  have hdue := h.due w hw lsn hl
  obtain rfl : c.slotNo lsn % c.workers = n := hn
  simp only [State.Due, hpc] at hdue
  simp only [State.Due, State.setNotifier, State.setLastNotify, update_self]
  by_contra hle
  obtain ⟨j, hj, -⟩ := hdue (Nat.le_of_not_lt hle)
  omega

/-- A notifier goes on. -/
theorem notifyStep {n : Nat} (hok : Ok c s (.notify n))
    (hs : s.notifyStep c n = some t) : Notified c t := by
  simp only [State.notifyStep] at hs
  split at hs
  · next hpc =>
    split at hs
    · cases hs
    · next hne =>
      split at hs <;> cases hs
      · next hzero => exact h.firstPass hpc (hok hzero)
      · next hzero => exact h.beginPass hpc hne hzero
  · next startLsn endLsn hpc =>
    split at hs
    · split at hs
      · obtain ⟨hfree, ⟨⟩⟩ := Option.ite_none_right_eq_some.mp hs
        refine h.nextTurn hpc ?_ ?_
        · intro w hw lsn hl
          obtain ⟨v, hv, rfl⟩ := mem_map.mp hw
          refine ⟨v, hv, ?_⟩
          cases v with
          | blocked l =>
            simp only at hl
            split at hl
            · exact hl.elim
            · exact hl
          | idle | spin | held | woken => exact hl
        · -- a waiter that stays blocked, or holds its mutex, belongs to another slot
          intro w hw lsn hl _ heq
          obtain ⟨v, hv, rfl⟩ := mem_map.mp hw
          cases v with
          | blocked l =>
            simp only at hl
            split at hl
            · exact hl.elim
            · next hslot =>
              obtain rfl : l = lsn := hl
              exact hslot heq.symm
          | held l flush =>
            obtain ⟨rfl, -⟩ : l = lsn ∧ flush < lsn := hl
            have := all_eq_true.mp hfree _ hv
            simp [heq] at this
          | idle | spin | woken => exact hl.elim
      · next hserve =>
        cases hs
        refine h.nextTurn hpc (fun w hw lsn hl => ⟨w, hw, hl⟩) fun w hw lsn hl hn heq => ?_
        exact hserve (by simpa only [Config.Serves, heq] using hn)
    · next hdone =>
      cases hs
      exact h.endPass hpc hdone

theorem step {op : Op} (hok : Ok c s op) (hs : s.step c op = some t) : Notified c t := by
  cases op <;> simp only [State.step] at hs
  case flush lsn =>
    split at hs
    · next hle =>
      cases hs
      exact ⟨fun n => (h.last_le n).trans hle, fun n startLsn endLsn hpc =>
        ⟨(h.pass_le n _ _ hpc).1, (h.pass_le n _ _ hpc).2.trans hle⟩, h.due⟩
    · cases hs
  case wait i lsn =>
    split at hs <;> cases hs
    exact h.setWaiter fun _ hl => hl.elim
  case spin i =>
    split at hs <;> cases hs
    refine h.setWaiter fun lsn hl => ?_
    split at hl <;> exact hl.elim
  case lock i =>
    split at hs
    · next lsn flush hi =>
      split at hs <;> cases hs
      refine h.setWaiter fun l hl => ?_
      obtain ⟨rfl, -⟩ : lsn = l ∧ flush < l := hl
      exact h.due_of_lt (hok lsn flush hi)
    · split at hs <;> cases hs
      -- after a wait the flush position is read again under the mutex
      refine h.setWaiter fun l hl => ?_
      exact h.due_of_lt hl.2
    · cases hs
  case test i =>
    split at hs
    · next lsn flush hi =>
      cases hs
      refine h.setWaiter fun l hl => h.due _ (mem_of_getElem? hi) l ?_
      split at hl
      · exact hl.elim
      · next hlt =>
        obtain rfl : lsn = l := hl
        exact ⟨rfl, Nat.lt_of_not_le hlt⟩
    · cases hs
  case spurious i =>
    split at hs <;> cases hs
    exact h.setWaiter fun _ hl => hl.elim
  case notify n =>
    split at hs
    · exact h.notifyStep hok hs
    · cases hs

theorem not_lost (hc : c.mode = 1 → c.workers = 1) : ¬ s.Lost c := by
  rintro ⟨lsn, hmem, hle, hall⟩
  have hdue := h.due _ hmem lsn rfl
  have hserve : c.slotNo lsn % c.workers ∈ c.notifiers := by
    unfold Config.notifiers
    split
    · next hmode => simp [hc hmode, Nat.mod_one]
    · exact mem_range.mpr (Nat.mod_lt _ c.workers_pos)
  have hlast := hall _ hserve rfl
  unfold State.Due at hdue
  split at hdue
  · omega
  · next hpass =>
    have := h.pass_le _ _ _ hpass
    omega

end

end Notified

/-- In every run whose waiters take the mutex before their LSN is flushed and whose notifiers make
their first pass over nobody, no notification is lost; and every pass meets the slot of every LSN
of its range. -/
theorem no_lost_notification (c : Config) (hc : c.mode = 1 → c.workers = 1) {lsn waiters : Nat}
    {s : State} (run : Reaches (State.step c) (Ok c) (State.init lsn waiters) s) :
    ¬ s.Lost c ∧ ∀ startLsn endLsn l, 0 < startLsn → startLsn < l → l ≤ endLsn →
      ∃ j, startLsn + j * c.slotSize ≤ c.alignedEnd endLsn ∧
        c.slotNo (startLsn + j * c.slotSize) = c.slotNo l := by
  refine ⟨?_, fun _ _ _ hpos hlo hhi => c.pass_meets hpos hlo hhi⟩
  have h : Notified c s :=
    run.invariant (Notified c) (.init lsn waiters) fun _ _ _ h hok hs => h.step hok hs
  exact h.not_lost hc

/-- Two notifiers of pages of 4 kB. -/
def twoNotifiers (mode : Nat) : Config :=
  { mode := mode, slotBits := 12, arrayBits := 4, workers := 2, workers_pos := Nat.two_pos }

/-- The notifier makes its first pass, a backend blocks for 150, the WAL is flushed to 200 and a
whole pass over the range wakes the backend, which returns. -/
def notifiedRun : List Op :=
  [.notify 0, .wait 0 150, .lock 0, .test 0, .flush 200, .notify 0, .notify 0, .notify 0, .lock 0,
    .test 0]

/-- Before the pass the backend is blocked for a flushed LSN and its notifier is behind; after it
nobody waits. -/
theorem no_lost_notification_notified :
    (∃ s, Reaches (State.step (twoNotifiers 2)) (Ok (twoNotifiers 2)) (State.init 100 1) s ∧
      s.waiters = [.blocked 150] ∧ s.logFlushResult = 200 ∧ ¬ s.Lost (twoNotifiers 2)) ∧
    ∃ s, Reaches (State.step (twoNotifiers 2)) (Ok (twoNotifiers 2)) (State.init 100 1) s ∧
      s.waiters = [.idle] ∧ s.lastNotify 0 = 200 ∧ ¬ s.Lost (twoNotifiers 2) := by
  have reached (k : Nat) := exists_reaches_tested (State.step (twoNotifiers 2))
    (Ok (twoNotifiers 2)) (State.init 100 1) (notifiedRun.take k)
  obtain ⟨s, run, hs⟩ := reached 5 (fun s => s.waiters = [.blocked 150] ∧ s.logFlushResult = 200)
    (by decide)
  obtain ⟨t, run', ht⟩ := reached 10 (fun s => s.waiters = [.idle] ∧ s.lastNotify 0 = 200)
    (by decide)
  have hnot := (no_lost_notification _ (by decide) run).1
  have hnot' := (no_lost_notification _ (by decide) run').1
  exact ⟨⟨s, run, hs.1, hs.2, hnot⟩, t, run', ht.1, ht.2, hnot'⟩

/-- The waiter spins, the LSN is flushed and a whole pass is made, then the waiter tests the flush
position it has read before. -/
def staleRun : List Op :=
  [.notify 0, .wait 0 150, .flush 200, .notify 0, .notify 0, .notify 0, .lock 0, .test 0]

/-- The waiter blocks and its LSN is flushed before the first pass. -/
def firstPassRun : List Op := [.wait 0 150, .lock 0, .test 0, .flush 200, .notify 0]

/-- In mode 1 nobody serves the second slot. -/
def unservedRun : List Op := [.wait 0 5000, .lock 0, .test 0, .flush 6000]

/-- A notification is lost over a stale test, over a first pass, and in mode 1 with two workers. -/
theorem notification_lost :
    (∃ s, Reaches (State.step (twoNotifiers 2)) (fun _ _ => True) (State.init 100 1) s ∧
      s.Lost (twoNotifiers 2)) ∧
    (∃ s, Reaches (State.step (twoNotifiers 3)) (fun _ _ => True) (State.init 100 1) s ∧
      s.Lost (twoNotifiers 3)) ∧
    ∃ s, Reaches (State.step (twoNotifiers 1)) (fun _ _ => True) (State.init 100 1) s ∧
      s.Lost (twoNotifiers 1) := by
  have view : ∀ mode ops lsn flush last,
      ((exec (State.step (twoNotifiers mode)) (State.init 100 1) ops).any fun s =>
        s.waiters = [.blocked lsn] ∧ s.logFlushResult = flush ∧ s.lastNotify 0 = last) = true →
      lsn ≤ flush → (∀ n ∈ (twoNotifiers mode).notifiers, (twoNotifiers mode).Serves n lsn →
        n = 0 ∧ last = flush) →
      ∃ s, Reaches (State.step (twoNotifiers mode)) (fun _ _ => True) (State.init 100 1) s ∧
        s.Lost (twoNotifiers mode) := by
    intro mode ops lsn flush last hview hle hserve
    obtain ⟨s, run, hw, hf, hl⟩ := exists_reaches_any _ _ _ _ hview
    refine ⟨s, run, lsn, ?_, ?_, ?_⟩
    · simp [hw]
    · rwa [hf]
    · intro n hn hsn
      obtain ⟨rfl, heq⟩ := hserve n hn hsn
      rw [hl, hf, heq]
  refine ⟨view 2 staleRun 150 200 200 (by decide) (by decide) (by decide),
    view 3 firstPassRun 150 200 200 (by decide) (by decide) (by decide),
    view 1 unservedRun 5000 6000 0 (by decide) (by decide) (by decide)⟩

end Polar.Pipeline.Notify
