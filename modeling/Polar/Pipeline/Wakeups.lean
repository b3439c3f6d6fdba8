import Mathlib.Tactic.IntervalCases
import Polar.Pipeline.Doorbell

/-!
# No mode up to 3 sleeps on outstanding work

In modes 1 to 3 every inserter and every committer rings the worker that has to move next, so
work that a worker has not seen is always announced: its doorbell is set, or somebody is still
going to ring it.
-/

namespace Polar.Pipeline

open Function Option
open List (replicate)

/-- The worker that moves the ready position in modes 1 to 3. -/
def advancer (mode : Nat) : Worker := if mode = 3 then .advance else .write

/-- The backend is going to ring the worker. -/
def Proc.Rings (mode : Nat) (w : Worker) : Proc → Prop
  | .copying _ _ => w ∈ wakeupTargets mode
  | .ringing targets _ _ => w ∈ targets
  | .idle | .waiting _ => False

/-- The backend waits for `lsn`, or will once it has rung the workers. -/
def Proc.Awaits (lsn : Nat) : Proc → Prop
  | .ringing _ _ wait => wait = some lsn
  | .waiting l => l = lsn
  | .idle | .copying _ _ => False

/-- The doorbell of the worker is set, or somebody is going to ring it. -/
def State.Alert (mode : Nat) (s : State) (w : Worker) : Prop :=
  s.wakeupPending w = true ∨ (∃ (i : Nat) (p : Proc), s.procs[i]? = some p ∧ p.Rings mode w) ∨
    ∃ v slow, runs mode v ∧ s.pc v = .signal w slow

/-- The worker has found no link in its current round. -/
def WorkerPc.PastAdvance : WorkerPc → Prop
  | .idle | .blocked | .sample false | .write false _ _ => True
  | _ => False

/-- Unseen work is announced to the worker that has to move next. -/
structure Announced (mode : Nat) (s : State) : Prop where
  localFlush_le : s.localFlush ≤ s.logFlushResult
  requested : ∀ (i : Nat) (p : Proc) (lsn : Nat), s.procs[i]? = some p → p.Awaits lsn →
    lsn ≤ s.rqstFlush ∧ lsn ≤ s.reserved
  advancerPc : s.pc (advancer mode) ≠ .flush
  writePc : s.pc .write ≠ .flush
  unlinked : (s.pc (advancer mode)).PastAdvance → s.ready < s.frontier →
    s.Alert mode (advancer mode)
  sampled : ∀ progress w f, s.pc .write = .write progress w f →
    w < s.rqstWrite ∨ f < s.rqstFlush → s.Alert mode .write
  unwritten : s.pc .write = .idle ∨ s.pc .write = .blocked →
    s.logWriteResult < min s.rqstWrite s.ready ∨ s.logFlushResult < min s.rqstFlush s.ready →
    s.Alert mode .write

namespace State

variable {mode : Nat} {s : State}

theorem lt_frontier_iff {x : Nat} :
    x < s.frontier ↔
      x < s.reserved ∧ ∀ (i pos endPos : Nat),
        s.procs[i]? = some (Proc.copying pos endPos) → x < pos := by
  have hmem : (∀ (i pos endPos : Nat), s.procs[i]? = some (Proc.copying pos endPos) → x < pos) ↔
      ∀ pos endPos, Proc.copying pos endPos ∈ s.procs → x < pos := by
    simp only [List.mem_iff_getElem?]
    constructor
    · rintro h pos endPos ⟨i, hi⟩
      exact h i pos endPos hi
    · intro h i pos endPos hi
      exact h pos endPos ⟨i, hi⟩
  rw [hmem, State.frontier]
  generalize s.procs = l
  induction l with
  | nil => simp
  | cons p l ih =>
    cases p with
    | copying pos endPos =>
      simp only [List.foldr_cons, lt_min_iff, ih, List.mem_cons, Proc.copying.injEq]
      constructor
      · rintro ⟨h, hn, hl⟩
        refine ⟨hn, fun pos' end' hp => ?_⟩
        obtain ⟨rfl, _⟩ | hp := hp
        · exact h
        · exact hl pos' end' hp
      · rintro ⟨hn, hl⟩
        exact ⟨hl pos endPos (.inl ⟨rfl, rfl⟩), hn, fun p e hp => hl p e (.inr hp)⟩
    | idle | ringing | waiting => simpa using ih

theorem ring_pc (s : State) (w u : Worker) :
    (s.ring w).pc u = s.pc u ∨ (s.ring w).pc u = .woken := by
  simp only [State.ring]
  split
  · by_cases hu : u = w
    · exact .inr (by simp [signalled, setPc, hu])
    · exact .inl (by simp [signalled, setPc, hu])
  · exact .inl rfl

theorem ring_wakeupPending (s : State) (w u : Worker) :
    (s.ring w).wakeupPending u = if u = w then true else s.wakeupPending u := by
  simp only [State.ring]
  split <;> exact update_apply ..

end State

theorem advancer_mem (mode : Nat) (h : mode ≤ 3) :
    advancer mode ∈ wakeupTargets mode ∧ .write ∈ wakeupTargets mode := by
  interval_cases mode <;> decide

theorem startPc_advancer (mode : Nat) (h : mode ≤ 3) :
    startPc mode (advancer mode) = .advance := by
  interval_cases mode <;> decide

theorem startPc_write (mode : Nat) :
    startPc mode .write = .advance ∨ startPc mode .write = .sample false := by
  simp only [startPc]
  split <;> simp

theorem runs_advancer (mode : Nat) (h : mode ≤ 3) : runs mode (advancer mode) = true := by
  interval_cases mode <;> decide

namespace State.Alert

variable {mode i : Nat} {s : State} {v w : Worker} {p p' : Proc}

theorem of_procs (h : s.procs[i]? = some p) (hr : p.Rings mode w) : s.Alert mode w :=
  .inr (.inl ⟨i, p, h, hr⟩)

theorem setProc (h : s.Alert mode w) (hi : s.procs[i]? = some p)
    (hr : p.Rings mode w → p'.Rings mode w ∨ s.wakeupPending w = true) :
    (s.setProc i p').Alert mode w := by
  obtain hp | ⟨j, q, hj, hq⟩ | hsig := h
  · exact .inl hp
  · by_cases hji : j = i
    · subst hji
      obtain rfl : p = q := some.inj (hi.symm.trans hj)
      obtain hr | hp := hr hq
      · exact of_procs (i := j) (by simp [State.setProc, (List.getElem?_eq_some_iff.mp hj).1]) hr
      · exact .inl hp
    · exact of_procs (i := j) (by simpa [State.setProc, Ne.symm hji] using hj) hq
  · exact .inr (.inr hsig)

theorem setPc {c : WorkerPc} (h : s.Alert mode w)
    (hsig : ∀ slow, s.pc v = .signal w slow → s.wakeupPending w = true ∨
      (runs mode v ∧ ∃ slow, c = .signal w slow)) : (s.setPc v c).Alert mode w := by
  obtain hp | hr | ⟨u, slow, hu, hpc⟩ := h
  · exact .inl hp
  · exact .inr (.inl hr)
  · by_cases huv : u = v
    · subst huv
      obtain hp | ⟨hrun, slow', rfl⟩ := hsig slow hpc
      · exact .inl hp
      · exact .inr (.inr ⟨u, slow', hrun, by simp [State.setPc]⟩)
    · exact .inr (.inr ⟨u, slow, hu, by simpa [State.setPc, huv] using hpc⟩)

theorem ring (h : s.Alert mode w) : (s.ring v).Alert mode w := by
  obtain hp | hr | ⟨u, slow, hu, hpc⟩ := h
  · refine .inl ?_
    simp only [State.ring]
    split <;> simp [State.signalled, State.setPc, update_apply, hp]
  · refine .inr (.inl ?_)
    simp only [State.ring]
    split <;> exact hr
  · refine .inr (.inr ⟨u, slow, hu, ?_⟩)
    simp only [State.ring]
    split
    · next hb =>
      have huv : u ≠ v := by
        rintro rfl
        simp [hpc] at hb
      simpa [State.signalled, State.setPc, huv] using hpc
    · exact hpc

end State.Alert

namespace Announced

variable {mode : Nat} {s t : State} {v w : Worker}

theorem init (lsn backends : Nat) (h : mode ≤ 3) :
    Announced mode (State.init mode lsn backends) where
  localFlush_le := Nat.zero_le _
  requested := by
    intro i p l hp ha
    obtain ⟨_, rfl⟩ := List.mem_replicate.mp (List.mem_of_getElem? hp)
    exact ha.elim
  advancerPc := by simp [State.init, startPc_advancer mode h]
  writePc := by
    obtain hw | hw := startPc_write mode <;> simp [State.init, hw]
  unlinked := by simp [State.init, startPc_advancer mode h, WorkerPc.PastAdvance]
  sampled := by
    obtain hw | hw := startPc_write mode <;> simp [State.init, hw]
  unwritten := by simp [State.init]

variable (inv : Announced mode s)
include inv

theorem withRung (rung : Worker → Bool) : Announced mode { s with rung := rung } :=
  { inv with }

/-- A backend has posted work and is going to ring the workers of its mode. -/
theorem post {i reserved rqstWrite rqstFlush : Nat} {p p' : Proc} (h : mode ≤ 3)
    (hp : s.procs[i]? = some p)
    (hrings : ∀ w ∈ wakeupTargets mode, p'.Rings mode w) (hreserved : s.reserved ≤ reserved)
    (hflush : s.rqstFlush ≤ rqstFlush)
    (hawaits : ∀ lsn, p'.Awaits lsn → lsn ≤ rqstFlush ∧ lsn ≤ reserved) :
    Announced mode ({ s with
      reserved := reserved, rqstWrite := rqstWrite, rqstFlush := rqstFlush }.setProc i p') := by
  have hi : i < s.procs.length := (List.getElem?_eq_some_iff.mp hp).1
  have hset : (s.procs.set i p')[i]? = some p' := by simp [hi]
  refine ⟨inv.localFlush_le, ?_, inv.advancerPc, inv.writePc, fun _ _ => ?_, fun _ _ _ _ _ => ?_,
    fun _ _ => ?_⟩
  · intro j q lsn hq ha
    by_cases hji : j = i
    · subst hji
      obtain rfl : p' = q := some.inj (hset.symm.trans hq)
      exact hawaits lsn ha
    · have hq : s.procs[j]? = some q := by simpa [State.setProc, Ne.symm hji] using hq
      have := inv.requested j q lsn hq ha
      exact ⟨this.1.trans hflush, this.2.trans hreserved⟩
  · exact .of_procs hset (hrings _ (advancer_mem mode h).1)
  · exact .of_procs hset (hrings _ (advancer_mem mode h).2)
  · exact .of_procs (i := i) hset (hrings _ (advancer_mem mode h).2)

/-- A backend that does not copy moves on without forgetting to ring. -/
theorem setProc {i : Nat} {p p' : Proc} (hp : s.procs[i]? = some p)
    (hcopy : ∀ pos endPos, p ≠ .copying pos endPos)
    (hrings : ∀ w, p.Rings mode w → p'.Rings mode w ∨ s.wakeupPending w = true)
    (hawaits : ∀ lsn, p'.Awaits lsn → p.Awaits lsn) : Announced mode (s.setProc i p') := by
  have hlt : ∀ x, x < (s.setProc i p').frontier → x < s.frontier := by
    intro x hx
    rw [State.lt_frontier_iff] at hx ⊢
    refine ⟨hx.1, fun j pos endPos hj => hx.2 j pos endPos ?_⟩
    have hji : j ≠ i := by
      rintro rfl
      exact hcopy pos endPos (some.inj (hp.symm.trans hj))
    simpa [State.setProc, hji.symm] using hj
  refine { inv with
    requested := ?_, unlinked := fun hpc hr => (inv.unlinked hpc (hlt _ hr)).setProc hp (hrings _),
    sampled := fun _ _ _ hpc hr => (inv.sampled _ _ _ hpc hr).setProc hp (hrings _),
    unwritten := fun hpc hr => (inv.unwritten hpc hr).setProc hp (hrings _) }
  intro j q lsn hq ha
  by_cases hji : j = i
  · subst hji
    have hj : j < s.procs.length := (List.getElem?_eq_some_iff.mp hp).1
    obtain rfl : p' = q := by simpa [State.setProc, hj] using hq
    exact inv.requested j p lsn hp (hawaits lsn ha)
  · exact inv.requested j q lsn (by simpa [State.setProc, Ne.symm hji] using hq) ha

/-- A worker moves on without forgetting to ring, and what its new place relies on is announced. -/
theorem setPc {c : WorkerPc}
    (hsig : ∀ target slow, s.pc v = .signal target slow → s.wakeupPending target = true ∨
      (runs mode v ∧ ∃ slow, c = .signal target slow))
    (hflush : v = advancer mode ∨ v = .write → c ≠ .flush)
    (hunlinked : v = advancer mode → c.PastAdvance → s.ready < s.frontier →
      s.Alert mode (advancer mode))
    (hsampled : v = .write → ∀ progress w f, c = .write progress w f →
      w < s.rqstWrite ∨ f < s.rqstFlush → s.Alert mode .write)
    (hunwritten : v = .write → c = .idle ∨ c = .blocked →
      s.logWriteResult < min s.rqstWrite s.ready ∨ s.logFlushResult < min s.rqstFlush s.ready →
      s.Alert mode .write) : Announced mode (s.setPc v c) := by
  have hpc : ∀ u, (s.setPc v c).pc u = if u = v then c else s.pc u :=
    fun u => update_apply ..
  refine ⟨inv.localFlush_le, inv.requested, ?_, ?_, ?_, ?_, ?_⟩
  · rw [hpc]
    split
    · exact hflush (.inl (Eq.symm ‹_›))
    · exact inv.advancerPc
  · rw [hpc]
    split
    · exact hflush (.inr (Eq.symm ‹_›))
    · exact inv.writePc
  · rw [hpc]
    intro hpast hr
    refine State.Alert.setPc ?_ (hsig _)
    split at hpast
    · exact hunlinked (Eq.symm ‹_›) hpast hr
    · exact inv.unlinked hpast hr
  · rw [hpc]
    intro progress w f hw hr
    refine State.Alert.setPc ?_ (hsig _)
    split at hw
    · exact hsampled (Eq.symm ‹_›) progress w f hw hr
    · exact inv.sampled progress w f hw hr
  · rw [hpc]
    intro hw hr
    refine State.Alert.setPc ?_ (hsig _)
    split at hw
    · exact hunwritten (Eq.symm ‹_›) hw hr
    · exact inv.unwritten hw hr

theorem startRound (h : mode ≤ 3)
    (hsig : ∀ target slow, s.pc v = .signal target slow → s.wakeupPending target = true) :
    Announced mode (s.startRound mode v) := by
  have hadv := startPc_advancer mode h
  refine (inv.withRung _).setPc (fun target slow hpc => .inl (hsig target slow hpc)) ?_ ?_ ?_ ?_
  · rintro (rfl | rfl)
    · simp [hadv]
    · obtain hw | hw := startPc_write mode <;> simp [hw]
  · rintro rfl hpast
    rw [hadv] at hpast
    exact hpast.elim
  · rintro rfl progress w f hc
    obtain hw | hw := startPc_write mode <;> simp [hw] at hc
  · rintro rfl hc
    obtain hw | hw := startPc_write mode <;> simp [hw] at hc

/-- A worker that has begun a round may have its doorbell cleared. -/
theorem silence (h : mode ≤ 3) (hv : s.pc v = startPc mode v) :
    Announced mode { s with wakeupPending := update s.wakeupPending v false } := by
  have halert : ∀ w, w ≠ v → s.Alert mode w →
      { s with wakeupPending := update s.wakeupPending v false }.Alert mode w := by
    rintro w hw (hp | hr)
    · exact .inl (by simpa [hw] using hp)
    · exact .inr hr
  refine { inv with
    unlinked := fun hpc hr => ?_, sampled := fun progress w f hpc hr => ?_,
    unwritten := fun hpc hr => ?_ }
  · refine halert _ ?_ (inv.unlinked hpc hr)
    rintro rfl
    rwa [hv, startPc_advancer mode h] at hpc
  · refine halert _ ?_ (inv.sampled progress w f hpc hr)
    rintro rfl
    obtain hw | hw := startPc_write mode <;> simp [hv, hw] at hpc
  · refine halert _ ?_ (inv.unwritten hpc hr)
    rintro rfl
    obtain hw | hw := startPc_write mode <;> simp [hv, hw] at hpc

theorem consume (h : mode ≤ 3) (hv : ∀ target slow, s.pc v ≠ .signal target slow) :
    Announced mode (s.consume mode v) := by
  have hround := inv.startRound h fun target slow hpc => (hv target slow hpc).elim
  exact hround.silence h (update_self ..)

theorem ring : Announced mode (s.ring w) := by
  have hpc := s.ring_pc w
  have hrest : (s.ring w).reserved = s.reserved ∧ (s.ring w).ready = s.ready ∧
      (s.ring w).rqstWrite = s.rqstWrite ∧ (s.ring w).rqstFlush = s.rqstFlush ∧
      (s.ring w).logWriteResult = s.logWriteResult ∧
      (s.ring w).logFlushResult = s.logFlushResult ∧ (s.ring w).localFlush = s.localFlush ∧
      (s.ring w).procs = s.procs ∧ (s.ring w).frontier = s.frontier := by
    simp only [State.ring]
    split <;> exact ⟨rfl, rfl, rfl, rfl, rfl, rfl, rfl, rfl, rfl⟩
  obtain ⟨hres, hready, hrw, hrf, hw, hf, hl, hprocs, hfr⟩ := hrest
  constructor
  · rw [hl, hf]
    exact inv.localFlush_le
  · rw [hprocs, hrf, hres]
    exact inv.requested
  · obtain h | h := hpc (advancer mode) <;> rw [h]
    · exact inv.advancerPc
    · simp
  · obtain h | h := hpc .write <;> rw [h]
    · exact inv.writePc
    · simp
  · rw [hready, hfr]
    obtain h | h := hpc (advancer mode) <;> rw [h]
    · exact fun hpast hr => (inv.unlinked hpast hr).ring
    · exact fun hpast => hpast.elim
  · rw [hrw, hrf]
    obtain h | h := hpc .write <;> rw [h]
    · exact fun progress w f hw hr => (inv.sampled progress w f hw hr).ring
    · simp
  · rw [hrw, hrf, hw, hf, hready]
    obtain h | h := hpc .write <;> rw [h]
    · exact fun hw hr => (inv.unwritten hw hr).ring
    · simp

/-- The ready position moves; the write worker is awake or told. -/
theorem raiseReady {upTo : Nat} (hup : s.ready ≤ upTo)
    (hwrite : s.pc .write = .idle ∨ s.pc .write = .blocked → s.Alert mode .write) :
    Announced mode { s with ready := upTo } :=
  { inv with
    unlinked := fun hpc hr => inv.unlinked hpc (lt_of_le_of_lt hup hr),
    unwritten := fun hpc _ => hwrite hpc }

theorem raiseResult {written flushed localFlush : Nat}
    (hw : s.logWriteResult ≤ written) (hf : s.logFlushResult ≤ flushed)
    (hl : localFlush ≤ flushed) :
    Announced mode { s with
      logWriteResult := written, logFlushResult := flushed, localFlush := localFlush } :=
  ⟨hl, inv.requested, inv.advancerPc, inv.writePc, inv.unlinked, inv.sampled, fun hpc hr =>
    inv.unwritten hpc (hr.imp (lt_of_le_of_lt hw) (lt_of_le_of_lt hf))⟩

theorem xlogWrite {rqstWrite rqstFlush segEnd : Nat} (h : mode ≤ 3) :
    Announced mode (s.xlogWrite mode rqstWrite rqstFlush segEnd) := by
  simp only [State.xlogWrite, if_pos h]
  refine inv.raiseResult (le_max_left _ _) ?_ (le_refl _)
  split <;> omega

theorem advance {upTo : Nat} (hrun : runs mode v = true)
    (hpc : s.pc v = .advance) (hup : s.ready < upTo) :
    Announced mode ({ s with ready := upTo }.setPc v
      (if v = Worker.write then .sample true else .signal .write false)) := by
  have hmoved : Announced mode (s.setPc v
      (if v = Worker.write then .sample true else .signal .write false)) := by
    refine inv.setPc (by simp [hpc]) ?_ ?_ ?_ ?_ <;> split <;> simp [WorkerPc.PastAdvance]
  refine hmoved.raiseReady hup.le fun hw => ?_
  by_cases hv : v = .write
  · subst hv
    simp [State.setPc] at hw
  · exact .inr (.inr ⟨v, false, hrun, by simp [State.setPc, hv]⟩)

theorem idle (hsig : ∀ target slow, s.pc v ≠ .signal target slow)
    (hpast : v = advancer mode → s.ready < s.frontier → s.Alert mode (advancer mode))
    (hwork : v = .write →
      s.logWriteResult < min s.rqstWrite s.ready ∨ s.logFlushResult < min s.rqstFlush s.ready →
      s.Alert mode .write) : Announced mode (s.setPc v .idle) :=
  inv.setPc (fun target slow hpc => (hsig target slow hpc).elim) (by simp)
    (fun hv _ hr => hpast hv hr) (by simp) fun hv _ hr => hwork hv hr

theorem work {upTo : Nat} (h : mode ≤ 3) (hrun : runs mode v = true)
    (hs : s.work mode v upTo = some t) : Announced mode t := by
  simp only [State.work] at hs
  split at hs
  next hpc =>
    split at hs
    · obtain ⟨hup, ⟨⟩⟩ := ite_none_right_eq_some.mp hs
      exact inv.advance hrun hpc hup.1
    · next hready =>
      cases hs
      split
      · next hv =>
        -- in modes 1 and 2 the write worker goes on to its own part of the round
        refine inv.setPc (by simp [hpc]) (by simp) (fun _ _ hr => (hready hr).elim) (by simp) ?_
        simp
      · next hv => exact inv.idle (by simp [hpc]) (fun _ hr => (hready hr).elim) fun hw => (hv hw).elim
  next progress hpc =>
    cases hs
    refine inv.setPc (by simp [hpc]) (by simp) (fun hv hpast hr => inv.unlinked ?_ hr) ?_ (by simp)
    · subst hv
      rw [hpc]
      cases progress
      · trivial
      · exact hpast.elim
    · rintro - _ w f hc (hr | hr) <;> (cases hc; omega)
  next progress rqstWrite rqstFlush hpc =>
    split at hs
    · next hdone =>
      cases hs
      cases progress with
      | true => exact inv.startRound h (by simp [hpc])
      | false =>
        refine inv.idle (by simp [hpc]) (fun hv => inv.unlinked ?_) fun hv hr => ?_
        · subst hv
          rw [hpc]
          trivial
        · subst hv
          have := inv.localFlush_le
          refine inv.sampled _ _ _ hpc ?_
          omega
    · cases hs
      exact (inv.xlogWrite h).startRound h (by simp [State.xlogWrite, hpc])
  next hpc =>
    have hv : v ≠ advancer mode ∧ v ≠ .write :=
      ⟨fun hv => inv.advancerPc (hv ▸ hpc), fun hv => inv.writePc (hv ▸ hpc)⟩
    split at hs
    · cases hs
      exact inv.idle (by simp [hpc]) (fun hw => (hv.1 hw).elim) fun hw => (hv.2 hw).elim
    · obtain ⟨hup, ⟨⟩⟩ := ite_none_right_eq_some.mp hs
      exact (inv.raiseResult (le_refl _) hup.1 (inv.localFlush_le.trans hup.1)).startRound h
        (by simp [hpc])
  next target slow hpc =>
    split at hs
    · cases hs
      refine inv.ring.startRound h fun target' slow' hsig => ?_
      obtain hsame | hwoken := s.ring_pc target v
      · obtain rfl : target = target' := by simp_all
        simp [State.ring_wakeupPending]
      · simp [hwoken] at hsig
    · split at hs
      · next hp =>
        cases hs
        refine (inv.withRung _).startRound h fun target' slow' hsig => ?_
        obtain rfl : target = target' := (WorkerPc.signal.inj (hpc.symm.trans hsig)).1
        exact hp
      · cases hs
        exact inv.setPc (by simp [hpc, hrun]) (by simp) (by simp [WorkerPc.PastAdvance]) (by simp)
          (by simp)
  next hpc =>
    cases hs
    split
    · exact inv.consume h (by simp [hpc])
    · refine inv.setPc (by simp [hpc]) (by simp) (fun hv _ => inv.unlinked ?_) (by simp)
        fun hv _ => inv.unwritten (.inl (hv ▸ hpc))
      subst hv
      rw [hpc]
      trivial
  next => cases hs
  next hpc =>
    cases hs
    exact inv.consume h (by simp [hpc])

theorem ringStep {i : Nat} {slow : Bool} {wait : Option Nat} {targets : List Worker}
    (hp : s.procs[i]? = some (.ringing targets slow wait)) :
    Announced mode (s.ringStep i wait slow targets) := by
  cases targets with
  | nil =>
    refine inv.setProc hp (by simp) (by simp [Proc.Rings]) fun lsn ha => ?_
    cases wait with
    | none => exact ha.elim
    | some l => exact congrArg some ha
  | cons w targets =>
    simp only [State.ringStep]
    split
    · refine inv.ring.setProc (p := .ringing (w :: targets) slow wait) ?_ (by simp) ?_
        fun _ ha => ha
      · simp only [State.ring]
        split <;> exact hp
      · intro u hu
        rw [State.ring_wakeupPending]
        obtain rfl | hu := List.mem_cons.mp hu
        · simp
        · exact .inl hu
    · split
      · next hw =>
        refine (inv.withRung _).setProc hp (by simp) (fun u hu => ?_) fun _ ha => ha
        obtain rfl | hu := List.mem_cons.mp hu
        · exact .inr hw
        · exact .inl hu
      · exact inv.setProc hp (by simp) (fun _ hu => .inl hu) fun _ ha => ha

theorem step {op : Op} (h : mode ≤ 3) (hs : s.step mode op = some t) :
    Announced mode t := by
  cases op <;> simp only [State.step] at hs
  case work v upTo =>
    obtain ⟨hrun, hs⟩ := ite_none_right_eq_some.mp hs
    exact inv.work h hrun hs
  all_goals repeat' split at hs
  all_goals cases hs
  · exact inv.post h ‹_› (fun _ hw => hw) (Nat.le_add_right _ _) (le_refl _) fun _ ha => ha.elim
  · exact inv.post h ‹_› (fun _ hw => hw) (le_refl _) (le_refl _) fun _ ha => ha.elim
  · refine inv.post h ‹_› (fun _ hw => hw) (le_refl _) (le_refl _) fun _ ha => ?_
    exact absurd ha (by simp [Proc.Awaits])
  · next lsn _ hp hlsn =>
    refine inv.post h hp (fun _ hw => hw) (le_refl _) (le_max_left _ _) fun l ha => ?_
    obtain rfl : lsn = l := some.inj ha
    exact ⟨le_max_right _ _, hlsn.2⟩
  · exact inv.ringStep ‹_›
  · next hp _ => exact inv.setProc hp (by simp) (fun _ hr => hr.elim) fun _ ha => ha.elim
  · next hpc => exact inv.startRound h (by simp [hpc.2])
  · next hpc =>
    exact inv.setPc (by simp [hpc]) (by simp) (by simp [WorkerPc.PastAdvance]) (by simp) (by simp)

/-- Announced work excludes that everybody sleeps. -/
theorem not_stuck (h : mode ≤ 3) : ¬ s.Stuck mode := by
  rintro ⟨hbusy, ⟨lsn, hmem, hlsn⟩, hsleep⟩
  have hsilent : ∀ w, runs mode w → ¬ s.Alert mode w := by
    rintro w hw (hp | ⟨i, p, hp, hr⟩ | ⟨v, slow, hv, hpc⟩)
    · simp [(hsleep w hw).2] at hp
    · have := hbusy p (List.mem_of_getElem? hp)
      cases p <;> simp_all [Proc.Rings, State.busy]
    · simp [(hsleep v hv).1] at hpc
  have hadv := runs_advancer mode h
  have hready : s.reserved ≤ s.ready := by
    by_contra hlt
    refine hsilent _ hadv (inv.unlinked ?_ (State.lt_frontier_iff.mpr ⟨not_le.mp hlt, ?_⟩))
    · rw [(hsleep _ hadv).1]
      trivial
    · intro i pos endPos hp
      exact absurd (hbusy _ (List.mem_of_getElem? hp)) (by simp [State.busy])
  obtain ⟨i, hi⟩ := List.mem_iff_getElem?.mp hmem
  obtain ⟨hrqst, hres⟩ := inv.requested i _ lsn hi rfl
  have hw : runs mode .write = true := rfl
  exact hsilent .write hw (inv.unwritten (.inr (hsleep .write hw).1) (.inr (by omega)))

end Announced

/-- A returned signal call is still in the doorbell, and nobody sleeps with the doorbell set. -/
structure Heard (s : State) : Prop where
  pending : ∀ w, s.rung w = true → s.wakeupPending w = true
  silent : ∀ w, s.pc w = .blocked → s.wakeupPending w = false

namespace Heard

variable {mode : Nat} {s t : State} {v w : Worker}

theorem startPc_ne (mode : Nat) (w : Worker) : startPc mode w ≠ .blocked := by
  cases w with
  | advance | flush => simp [startPc]
  | write =>
    obtain hw | hw := startPc_write mode <;> simp [hw]

/-- What is in the wait objects does not change. -/
theorem congr (heard : Heard s) (hp : t.wakeupPending = s.wakeupPending) (hr : t.rung = s.rung)
    (hpc : t.pc = s.pc) : Heard t := by
  constructor
  · rw [hp, hr]
    exact heard.pending
  · rw [hp, hpc]
    exact heard.silent

theorem setPc {c : WorkerPc} (heard : Heard s) (hc : c = .blocked → s.wakeupPending v = false) :
    Heard (s.setPc v c) := by
  refine ⟨heard.pending, fun w hw => ?_⟩
  by_cases hwv : w = v
  · subst hwv
    exact hc (by simpa [State.setPc] using hw)
  · exact heard.silent w (by simpa [State.setPc, hwv] using hw)

theorem startRound (heard : Heard s) : Heard (s.startRound mode v) := by
  refine setPc ⟨fun w hw => ?_, heard.silent⟩ fun hc => (startPc_ne mode v hc).elim
  by_cases hwv : w = v
  · simp [hwv] at hw
  · exact heard.pending w (by simpa [hwv] using hw)

theorem consume (heard : Heard s) : Heard (s.consume mode v) := by
  have hround : Heard (s.startRound mode v) := heard.startRound
  constructor
  · intro w hw
    by_cases hwv : w = v
    · simp [State.consume, State.startRound, State.setPc, hwv] at hw
    · have := hround.pending w hw
      simpa [State.consume, State.startRound, State.setPc, hwv] using this
  · intro w hw
    by_cases hwv : w = v
    · simp [State.consume, State.startRound, State.setPc, hwv]
    · have := hround.silent w hw
      simpa [State.consume, State.startRound, State.setPc, hwv] using this

theorem signalled (heard : Heard s) (hw : s.wakeupPending w = true) : Heard (s.signalled w) := by
  refine ⟨fun u hu => ?_, heard.silent⟩
  by_cases huw : u = w
  · exact huw ▸ hw
  · exact heard.pending u (by simpa [State.signalled, huw] using hu)

theorem ring (heard : Heard s) : Heard (s.ring w) := by
  constructor
  · intro u hu
    rw [State.ring_wakeupPending]
    split
    · rfl
    · next huw =>
      refine heard.pending u ?_
      simp only [State.ring] at hu
      split at hu <;> simpa [State.signalled, State.setPc, huw] using hu
  · intro u hu
    rw [State.ring_wakeupPending]
    obtain hsame | hwoken := s.ring_pc w u
    · split
      · next huw =>
        -- a blocked worker that is rung does not stay blocked
        subst huw
        have hb : s.pc u = .blocked := hsame.symm.trans hu
        simp [State.ring, hb, State.signalled, State.setPc] at hu
      · exact heard.silent u (hsame.symm.trans hu)
    · simp [hwoken] at hu

theorem work {upTo : Nat} (heard : Heard s) (hs : s.work mode v upTo = some t) : Heard t := by
  simp only [State.work] at hs
  repeat' split at hs
  all_goals cases hs
  all_goals first
    | exact heard.setPc fun _ => Bool.eq_false_iff.mpr ‹¬ s.wakeupPending v = true›
    | exact setPc (heard.congr rfl rfl rfl) (by simp)
    | exact startRound (heard.congr rfl rfl rfl)
    | exact heard.ring.startRound
    | exact (heard.signalled ‹_›).startRound
    | exact heard.consume

theorem step {op : Op} (heard : Heard s) (hs : s.step mode op = some t) : Heard t := by
  cases op with
  | reserve i len | copy i len | commit i lsn | wake i =>
    simp only [State.step] at hs
    repeat' split at hs
    all_goals cases hs
    all_goals exact heard.congr rfl rfl rfl
  | ring i =>
    simp only [State.step] at hs
    split at hs <;> cases hs
    unfold State.ringStep
    split
    · exact heard.congr rfl rfl rfl
    · split
      · exact heard.ring.congr rfl rfl rfl
      · split
        · exact (heard.signalled ‹_›).congr rfl rfl rfl
        · exact heard.congr rfl rfl rfl
  | work v upTo => exact heard.work (ite_none_right_eq_some.mp hs).2
  | spin v =>
    simp only [State.step] at hs
    repeat' split at hs
    all_goals cases hs
    · exact heard.startRound
    · exact heard.setPc (by simp)

end Heard

/-- The states of the pipeline in a mode. -/
def Reachable (mode : Nat) (s : State) : Prop :=
  ∃ lsn backends, Reaches (State.step mode) (fun _ _ => True) (State.init mode lsn backends) s

theorem heard_of_reachable {mode : Nat} {s : State} (h : Reachable mode s) : Heard s := by
  obtain ⟨lsn, backends, run⟩ := h
  refine run.invariant Heard ⟨?_, ?_⟩ fun _ _ _ heard _ hs => heard.step hs
  · simp [State.init]
  · simp [State.init]

theorem announced_of_reachable {mode : Nat} {s : State} (hmode : mode ≤ 3)
    (h : Reachable mode s) : Announced mode s := by
  obtain ⟨lsn, backends, run⟩ := h
  exact run.invariant (Announced mode) (.init lsn backends hmode)
    fun _ _ _ inv _ hs => inv.step hmode hs

/-- One record is inserted and its committer waits. In mode 4 nobody rings the write worker; in
mode 5 the advance worker has moved on before the request, and does not pass the bell on. -/
def sleepRun : Nat → List Op
  | 4 =>
    replicate 9 (.work .write 0) ++ replicate 4 (.work .flush 0) ++
      [.reserve 0 8, .copy 0 8, .ring 0, .ring 0, .ring 0] ++
      replicate 3 (.work .flush 0) ++
      [.commit 0 108, .ring 0, .ring 0, .ring 0] ++ replicate 3 (.work .flush 0)
  | _ =>
    replicate 7 (.work .write 0) ++ replicate 4 (.work .flush 0) ++
      replicate 2 (.work .advance 0) ++
      [.reserve 0 8, .copy 0 8, .ring 0, .ring 0, .ring 0, .ring 0, .ring 0] ++
      replicate 3 (.work .flush 0) ++
      replicate 4 (.work .advance 108) ++ replicate 2 (.work .advance 0) ++
      replicate 4 (.work .write 0) ++
      [.commit 0 108, .ring 0, .ring 0, .ring 0, .ring 0, .ring 0] ++
      replicate 3 (.work .flush 0) ++ replicate 3 (.work .advance 0)

theorem sleepRun_stuck (mode : Nat) (h : mode = 4 ∨ mode = 5) :
    ∃ s, Reachable mode s ∧ s.Stuck mode := by
  obtain ⟨s, run, hprocs, hflush, hsleep⟩ := exists_reaches_any (State.step mode)
    (State.init mode 100 1) (sleepRun mode)
    (fun s => s.procs = [.waiting 108] ∧ s.logFlushResult = 100 ∧
      ∀ w ∈ [Worker.advance, .write, .flush], runs mode w → s.pc w = .blocked ∧
        s.wakeupPending w = false) (by obtain rfl | rfl := h <;> decide)
  refine ⟨s, ⟨100, 1, run⟩, ?_, ⟨108, ?_, ?_⟩, fun w => hsleep w (by cases w <;> simp)⟩
  · simp [hprocs, State.busy]
  · simp [hprocs]
  · simp [hflush]

/-- In modes 1 to 5 the workers never all sleep on outstanding work exactly when the mode is at most
3; in every mode a worker never blocks over a signal call that has returned. -/
theorem workers_never_all_sleep_iff (mode : Nat) (hmode : 1 ≤ mode ∧ mode ≤ 5) :
    ((∀ s, Reachable mode s → ¬ s.Stuck mode) ↔ mode ≤ 3) ∧
      ∀ s, Reachable mode s → ∀ w, s.pc w = .blocked →
        s.wakeupPending w = false ∧ s.rung w = false := by
  constructor
  · constructor
    · intro hnever
      by_contra hgt
      obtain ⟨s, hs, hstuck⟩ := sleepRun_stuck mode (by omega)
      exact hnever s hs hstuck
    · exact fun h s hs => (announced_of_reachable h hs).not_stuck h
  · intro s hs w hw
    have heard := heard_of_reachable hs
    refine ⟨heard.silent w hw, Bool.eq_false_iff.mpr fun hr => ?_⟩
    have hp := heard.pending w hr
    rw [heard.silent w hw] at hp
    cases hp

/-- In mode 3 no committer is left waiting. -/
theorem workers_never_all_sleep_mode3 :
    (1 ≤ 3 ∧ 3 ≤ 5) ∧ ((∀ s, Reachable 3 s → ¬ s.Stuck 3) ↔ 3 ≤ 3) :=
  ⟨by decide, (workers_never_all_sleep_iff 3 (by decide)).1⟩

/-- In modes 4 and 5 a committer can wait while every worker sleeps. -/
theorem workers_all_sleep_modes4and5 :
    (∃ s, Reachable 4 s ∧ s.Stuck 4) ∧ ∃ s, Reachable 5 s ∧ s.Stuck 5 :=
  ⟨sleepRun_stuck 4 (.inl rfl), sleepRun_stuck 5 (.inr rfl)⟩

end Polar.Pipeline
