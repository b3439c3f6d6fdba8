import Polar.SyncDdl.Wait
import Mathlib.Order.Nat

/-!
# A wait returns after the replicas hold the lock

As long as no replica has reported less than `WalSndCtl->lsn[POLAR_SYNC_DDL_WAIT_APPLY]`, a wait
that finds its position there returns at a moment at which all replicas have reported it.
-/

namespace Polar.SyncDdl

open List Function
open State (init step)

/-- The position of a backend that is inside the wait, and whether it has seen the moment. -/
def Wait.open? : Wait → Option (Nat × Bool)
  | .called lsn seen | .checking lsn seen | .waiting lsn seen | .complete lsn seen => some (lsn, seen)
  | _ => none

namespace State

/-- Some slot that is not passed belongs to a replica. -/
def Ahead (s : State) (i : Nat) : Prop := ∃ j, i ≤ j ∧ j < s.maxSlots ∧ (s.slots j).isReplica = true

/-- All that wait have seen the moment. -/
def AllSeen (s : State) : Prop := ∀ p lsn seen, s.waits p = .waiting lsn seen → seen = true

/-- The replicas among the slots that are passed have reported the position. -/
def Passed (s : State) (i lsn : Nat) : Prop :=
  ∀ j < i, (s.slots j).isReplica = true → lsn ≤ (s.slots j).lockLsn

/-- What holds while a process has `SyncRepLock`. -/
def JobOk (s : State) : Prop :=
  match s.job with
  | none => True
  | some (.check p i) => ∃ lsn seen, s.waits p = .checking lsn seen ∧ (seen = true ∨ s.Ahead i)
  | some (.scan i m exist allActive) =>
    (exist = true ∨ s.AllSeen ∨ s.Ahead i) ∧ (allActive = true → m ≠ 0 → s.Passed i m)
  | some (.act m exist allActive) =>
    (exist = true ∨ s.AllSeen) ∧ (allActive = true → m ≠ 0 → s.Passed s.maxSlots m)

variable {s : State}

theorem jobOk_none (h : s.job = none) : s.JobOk := by
  unfold JobOk
  rw [h]
  trivial

/-- The invariant, up to what the waits note at the end of a step. -/
structure Core (s : State) : Prop where
  slot_lt : ∀ i, (s.slots i).inUse = true → i < s.maxSlots
  floor : ∀ i, (s.slots i).isReplica = true → s.lsn ≤ (s.slots i).lockLsn
  job : s.JobOk
  complete : ∀ p lsn seen, s.waits p = .complete lsn seen → seen = true ∨ s.Reached lsn
  returned : ∀ p lsn seen, s.waits p = .returned lsn seen → seen = true
  removals : ∀ r ∈ s.removals, r.2 = true
  queued : ∀ q ∈ s.queue, ∃ seen, s.waits q.1 = .waiting q.2 seen
  nodup : (s.queue.map Prod.fst).Nodup

/-- What every run keeps: a wait that is reached has been noted. -/
structure Inv (s : State) : Prop extends Core s where
  noted : ∀ p lsn seen, (s.waits p).open? = some (lsn, seen) → s.Reached lsn → seen = true

variable {slot : Slot}

theorem isReplica_inUse (h : slot.isReplica = true) : slot.inUse = true :=
  (Bool.and_eq_true_iff.mp h).1

/-- Without a replica every position is reached. -/
theorem reached_of_not_ahead (h : ¬ s.Ahead 0) (lsn : Nat) : s.Reached lsn := by
  intro i hi hreplica
  exact absurd ⟨i, Nat.zero_le i, hi, hreplica⟩ h

/-! ## What the waits note -/

variable {w : Wait} {reached : Nat → Bool} {lsn : Nat} {seen : Bool}

theorem note_waiting (h : w.note reached = .waiting lsn seen) :
    ∃ seen', w = .waiting lsn seen' ∧ seen = (seen' || reached lsn) := by
  cases w with
  | waiting l b =>
    obtain ⟨rfl, rfl⟩ := h
    exact ⟨b, rfl, rfl⟩
  | idle | called _ _ | checking _ _ | complete _ _ | returned _ _ => simp [Wait.note] at h

theorem note_complete (h : w.note reached = .complete lsn seen) :
    ∃ seen', w = .complete lsn seen' ∧ seen = (seen' || reached lsn) := by
  cases w with
  | complete l b =>
    obtain ⟨rfl, rfl⟩ := h
    exact ⟨b, rfl, rfl⟩
  | idle | called _ _ | checking _ _ | waiting _ _ | returned _ _ => simp [Wait.note] at h

theorem note_returned (h : w.note reached = .returned lsn seen) : w = .returned lsn seen := by
  cases w with
  | returned l b => exact h
  | idle | called _ _ | checking _ _ | waiting _ _ | complete _ _ => simp [Wait.note] at h

theorem note_open (h : (w.note reached).open? = some (lsn, seen)) (hreached : reached lsn = true) :
    seen = true := by
  cases w with
  | idle | returned _ _ => simp [Wait.note, Wait.open?] at h
  | called l b | checking l b | waiting l b | complete l b =>
    obtain ⟨rfl, rfl⟩ := h
    simp [hreached]

/-- A moment that is seen stays seen. -/
theorem AllSeen.observe (h : s.AllSeen) : s.observe.AllSeen := by
  intro p lsn seen hw
  obtain ⟨seen', hw', rfl⟩ := note_waiting hw
  simp [h p lsn seen' hw']

variable {s t : State}

/-- A step that leaves the lock where it is keeps what holds under it. -/
theorem JobOk.mono (h : s.JobOk) (hjob : t.job = s.job) (hmax : t.maxSlots = s.maxSlots)
    (hcheck : ∀ p i lsn seen, s.job = some (.check p i) → s.waits p = .checking lsn seen →
      ∃ seen', t.waits p = .checking lsn seen' ∧ (seen = true → seen' = true))
    (hseen : s.AllSeen → t.AllSeen) (hahead : s.looking = true → ∀ i, s.Ahead i → t.Ahead i)
    (hpassed : ∀ k m, (∀ i < k, i < s.maxSlots → s.pending i = m) → s.Passed k m → t.Passed k m) :
    t.JobOk := by
  unfold JobOk at h ⊢
  rw [hjob, hmax]
  split at h
  · trivial
  · next p i hc =>
    obtain ⟨lsn, seen, hw, hor⟩ := h
    obtain ⟨seen', hw', hkeep⟩ := hcheck p i lsn seen hc hw
    exact ⟨lsn, seen', hw', hor.imp hkeep (hahead (by simp [looking, hc]) i)⟩
  · next i m exist allActive hc =>
    refine ⟨h.1.imp_right (.imp hseen (hahead (by simp [looking, hc]) i)), fun hactive hm => ?_⟩
    refine hpassed i m (fun j hj _ => ?_) (h.2 hactive hm)
    subst hactive
    simp [pending, hc, hj]
  · next m exist allActive hc =>
    refine ⟨h.1.imp_right hseen, fun hactive hm => ?_⟩
    refine hpassed s.maxSlots m (fun j _ _ => ?_) (h.2 hactive hm)
    subst hactive
    simp [pending, hc]

theorem JobOk.observe (h : s.JobOk) : s.observe.JobOk := by
  refine h.mono rfl rfl (fun p i lsn seen _ hw => ?_) AllSeen.observe (fun _ _ ha => ha)
    fun _ _ _ hp => hp
  refine ⟨seen || decide (s.Reached lsn), ?_, fun hseen => by simp [hseen]⟩
  change (s.waits p).note _ = _
  rw [hw]
  rfl

/-- At the end of a step the waits have noted whether the position is reached. -/
theorem Core.observe (h : s.Core) : s.observe.Inv where
  slot_lt := h.slot_lt
  floor := h.floor
  job := h.job.observe
  complete p lsn seen hw := by
    obtain ⟨seen', hw', rfl⟩ := note_complete hw
    rcases h.complete p lsn seen' hw' with hseen | hreached
    · simp [hseen]
    · simp [hreached]
  returned p lsn seen hw := h.returned p lsn seen (note_returned hw)
  removals := h.removals
  queued q hq := by
    obtain ⟨seen, hw⟩ := h.queued q hq
    refine ⟨seen || decide (s.Reached q.2), ?_⟩
    change (s.waits q.1).note _ = _
    rw [hw]
    rfl
  nodup := h.nodup
  noted p lsn seen hw hreached := note_open hw (decide_eq_true hreached)

theorem core_init (maxSlots : Nat) : (State.init maxSlots).Core where
  slot_lt _ h := by cases h
  floor _ h := by cases h
  job := trivial
  complete _ _ _ h := by cases h
  returned _ _ _ h := by cases h
  removals _ h := by cases h
  queued _ h := by cases h
  nodup := nodup_nil

/-! ## Slots -/

variable {i : Nat}

/-- What a release in progress has seen of the slots that it has passed. -/
theorem Inv.pending_le (h : s.Inv) (hreplica : (s.slots i).isReplica = true) :
    s.pending i ≤ (s.slots i).lockLsn := by
  have hjob := h.job
  unfold JobOk at hjob
  unfold pending
  split
  · next j m exist hscan =>
    rw [hscan] at hjob
    split
    · next hlt =>
      by_cases hm : m = 0
      · exact hm ▸ Nat.zero_le _
      · exact hjob.2 rfl hm i hlt hreplica
    · exact Nat.zero_le _
  · next m exist hact =>
    rw [hact] at hjob
    by_cases hm : m = 0
    · exact hm ▸ Nat.zero_le _
    · exact hjob.2 rfl hm i (h.slot_lt i (isReplica_inUse hreplica)) hreplica
  · exact Nat.zero_le _

theorem slots_setSlot (s : State) (i : Nat) (slot : Slot) (j : Nat) :
    ((s.setSlot i slot).slots j = slot ∧ j = i) ∨ (s.setSlot i slot).slots j = s.slots j ∧
      j ≠ i := by
  by_cases hji : j = i
  · subst hji
    exact .inl ⟨update_self .., rfl⟩
  · exact .inr ⟨update_of_ne hji .., hji⟩

/-- A replica among the slots that are not passed stays one while a process looks at the slots. -/
theorem Ahead.setSlot {i k : Nat} (h : s.Ahead k)
    (hkeep : (s.slots i).isReplica = true → slot.isReplica = true) :
    (s.setSlot i slot).Ahead k := by
  obtain ⟨j, hkj, hj, hreplica⟩ := h
  refine ⟨j, hkj, hj, ?_⟩
  rcases slots_setSlot s i slot j with ⟨heq, rfl⟩ | ⟨heq, -⟩
  · rw [heq]
    exact hkeep hreplica
  · rwa [heq]

theorem Passed.setSlot {i k m : Nat} (h : s.Passed k m)
    (hnew : i < k → slot.isReplica = true → m ≤ slot.lockLsn) : (s.setSlot i slot).Passed k m := by
  intro j hj hreplica
  rcases slots_setSlot s i slot j with ⟨heq, rfl⟩ | ⟨heq, -⟩
  · rw [heq] at hreplica ⊢
    exact hnew hj hreplica
  · rw [heq] at hreplica ⊢
    exact h j hj hreplica

/-- A slot changes. It may not report less than what was taken for the position of all, and while a
process looks at the slots a replica stays one. -/
theorem Inv.setSlot (h : s.Inv) (hlt : slot.inUse = true → i < s.maxSlots)
    (hfloor : slot.isReplica = true → s.lsn ≤ slot.lockLsn ∧ s.pending i ≤ slot.lockLsn)
    (hkeep : s.looking = true → (s.slots i).isReplica = true → slot.isReplica = true)
    (hwaits : ∀ p lsn seen, s.waits p = .complete lsn seen → seen = true) :
    (s.setSlot i slot).Core where
  slot_lt j hj := by
    rcases slots_setSlot s i slot j with ⟨heq, rfl⟩ | ⟨heq, -⟩
    · exact hlt (heq ▸ hj)
    · exact h.slot_lt j (heq ▸ hj)
  floor j hj := by
    rcases slots_setSlot s i slot j with ⟨heq, rfl⟩ | ⟨heq, -⟩
    · rw [heq] at hj ⊢
      exact (hfloor hj).1
    · rw [heq] at hj ⊢
      exact h.floor j hj
  job := by
    refine h.job.mono rfl rfl (fun p j lsn seen _ hw => ⟨seen, hw, id⟩) (fun hall => hall)
      (fun hlook k ha => ha.setSlot (hkeep hlook)) fun k m hpending hp => ?_
    refine hp.setSlot fun hik hreplica => ?_
    rw [← hpending i hik (hlt (isReplica_inUse hreplica))]
    exact (hfloor hreplica).2
  complete p lsn seen hw := .inl (hwaits p lsn seen hw)
  returned := h.returned
  removals := h.removals
  queued := h.queued
  nodup := h.nodup

variable {p lsn : Nat}

/-- In an observed state a completed wait has seen the moment. -/
theorem Inv.complete_seen (h : s.Inv) (hw : s.waits p = .complete lsn seen) : seen = true := by
  rcases h.complete p lsn seen hw with hseen | hreached
  · exact hseen
  · exact h.noted p lsn seen (by rw [hw]; rfl) hreached

/-- A slot keeps what it has reported, or has reported nothing. -/
theorem Inv.setSlot_same (h : s.Inv) (hlt : slot.inUse = true → i < s.maxSlots)
    (hsame : slot.isReplica = true → (s.slots i).isReplica = true ∧
      slot.lockLsn = (s.slots i).lockLsn)
    (hkeep : s.looking = true → (s.slots i).isReplica = true → slot.isReplica = true) :
    (s.setSlot i slot).Core := by
  refine h.setSlot hlt (fun hreplica => ?_) hkeep fun p lsn seen hw => h.complete_seen hw
  obtain ⟨hold, heq⟩ := hsame hreplica
  rw [heq]
  exact ⟨h.floor i hold, h.pending_le hold⟩

/-! ## Waits -/

variable {p : Nat}

/-- Who holds the lock for a check is at it. -/
theorem Core.not_check (h : s.Core)
    (hne : ∀ lsn seen, s.waits p ≠ .checking lsn seen) (i : Nat) : s.job ≠ some (.check p i) := by
  intro hjob
  have hok := h.job
  unfold JobOk at hok
  rw [hjob] at hok
  obtain ⟨lsn, seen, hw, -⟩ := hok
  exact hne lsn seen hw

/-- A backend moves on that is not in the queue and does not hold the lock for a check. -/
theorem Core.setWait (h : s.Core) (hout : ∀ lsn seen, s.waits p ≠ .waiting lsn seen)
    (hwaiting : ∀ lsn seen, w ≠ .waiting lsn seen) (hcheck : ∀ i, s.job ≠ some (.check p i))
    (hcomplete : ∀ lsn seen, w = .complete lsn seen → seen = true)
    (hreturned : ∀ lsn seen, w = .returned lsn seen → seen = true) : (s.setWait p w).Core where
  slot_lt := h.slot_lt
  floor := h.floor
  job := by
    have hjob := h.job
    have hseen : s.AllSeen → (s.setWait p w).AllSeen := by
      intro hall q lsn seen hw
      by_cases hqp : q = p
      · subst hqp
        exact absurd ((update_self ..).symm.trans hw) (hwaiting lsn seen)
      · exact hall q lsn seen ((update_of_ne hqp ..).symm.trans hw)
    refine hjob.mono rfl rfl (fun q i lsn seen hc hw => ⟨seen, ?_, id⟩) hseen (fun _ _ ha => ha)
      fun _ _ _ hp => hp
    have hqp : q ≠ p := by
      rintro rfl
      exact hcheck i hc
    exact (update_of_ne hqp ..).trans hw
  complete q lsn seen hw := by
    by_cases hqp : q = p
    · subst hqp
      exact .inl (hcomplete lsn seen ((update_self ..).symm.trans hw))
    · exact h.complete q lsn seen ((update_of_ne hqp ..).symm.trans hw)
  returned q lsn seen hw := by
    by_cases hqp : q = p
    · subst hqp
      exact hreturned lsn seen ((update_self ..).symm.trans hw)
    · exact h.returned q lsn seen ((update_of_ne hqp ..).symm.trans hw)
  removals := h.removals
  queued q hq := by
    obtain ⟨seen, hw⟩ := h.queued q hq
    have hqp : q.1 ≠ p := by
      rintro rfl
      exact hout _ _ hw
    exact ⟨seen, (update_of_ne hqp ..).trans hw⟩
  nodup := h.nodup

/-- The lock changes hands, or its holder goes on. -/
theorem Core.setJob (h : s.Core) {job : Option Job}
    (hjob : JobOk { s with job := job }) : Core { s with job := job } where
  slot_lt := h.slot_lt
  floor := h.floor
  job := hjob
  complete := h.complete
  returned := h.returned
  removals := h.removals
  queued := h.queued
  nodup := h.nodup

theorem Inv.startCheck (h : s.Inv) (hw : s.waits p = .called lsn seen) :
    Core { s.setWait p (.checking lsn seen) with job := some (.check p 0) } := by
  have hcore : (s.setWait p (.checking lsn seen)).Core := by
    apply h.setWait _ _ (h.not_check _) <;> simp [hw]
  refine hcore.setJob ⟨lsn, seen, update_self .., ?_⟩
  by_cases hahead : s.Ahead 0
  · exact .inr hahead
  · exact .inl (h.noted p lsn seen (by rw [hw]; rfl) (reached_of_not_ahead hahead lsn))

theorem Inv.startScan (h : s.Inv) :
    Core { s with job := some (.scan 0 0 false true) } := by
  refine h.toCore.setJob ⟨.inr ?_, fun _ hm => absurd rfl hm⟩
  by_cases hahead : s.Ahead 0
  · exact .inr hahead
  · exact .inl fun p lsn seen hw =>
      h.noted p lsn seen (by rw [hw]; rfl) (reached_of_not_ahead hahead lsn)

/-- The slot that is looked at is not one of a replica: those ahead are further on. -/
theorem Ahead.succ (h : s.Ahead i) (hnot : ¬ (s.slots i).isReplica = true) : s.Ahead (i + 1) := by
  obtain ⟨j, hij, hj, hreplica⟩ := h
  have hne : i ≠ j := by
    rintro rfl
    exact hnot hreplica
  exact ⟨j, by omega, hj, hreplica⟩

theorem Ahead.not_of_le (hle : s.maxSlots ≤ i) : ¬ s.Ahead i := by
  rintro ⟨j, hij, hj, -⟩
  omega

theorem Passed.succ {i m m' : Nat} (h : s.Passed i m) (hle : m' ≤ m)
    (hself : (s.slots i).isReplica = true → m' ≤ (s.slots i).lockLsn) : s.Passed (i + 1) m' := by
  intro j hj hreplica
  rcases Nat.lt_succ_iff_lt_or_eq.mp hj with hlt | rfl
  · exact hle.trans (h j hlt hreplica)
  · exact hself hreplica

/-! ## The queue -/

theorem wakeQueue_append (all : Bool) (lsn : Nat) (queue : List (Nat × Nat)) :
    (wakeQueue all lsn queue).1 ++ (wakeQueue all lsn queue).2 = queue := by
  induction queue with
  | nil => rfl
  | cons q queue ih =>
    unfold wakeQueue
    split
    · rfl
    · exact congrArg (q :: ·) ih

/-- Without `all` only those are woken whose position is reached. -/
theorem le_of_woken {queue : List (Nat × Nat)} {q : Nat × Nat}
    (h : q ∈ (wakeQueue false lsn queue).1) : q.2 ≤ lsn := by
  induction queue with
  | nil => cases h
  | cons q' queue ih =>
    unfold wakeQueue at h
    split at h
    · cases h
    · next hle =>
      rcases mem_cons.mp h with rfl | hrest
      · simpa using hle
      · exact ih hrest

theorem queueInsert_perm (proc lsn : Nat) (queue : List (Nat × Nat)) :
    (queueInsert proc lsn queue).Perm ((proc, lsn) :: queue) := by
  have hafter : queue.drop (queue.length -
      ((queue.reverse.takeWhile fun q => lsn ≤ q.2).reverse).length) =
      (queue.reverse.takeWhile fun q => lsn ≤ q.2).reverse := by
    have hsuffix : (queue.reverse.takeWhile fun q => lsn ≤ q.2).reverse <:+ queue :=
      reverse_prefix.mp (by simpa using takeWhile_prefix _)
    exact (suffix_iff_eq_drop.mp hsuffix).symm
  calc queueInsert proc lsn queue
    _ |>.Perm ((proc, lsn) :: (queue.take (queue.length -
          ((queue.reverse.takeWhile fun q => lsn ≤ q.2).reverse).length) ++
        (queue.reverse.takeWhile fun q => lsn ≤ q.2).reverse)) := perm_middle
    _ |>.Perm ((proc, lsn) :: queue) := by
        nth_rewrite 2 [← hafter]
        rw [take_append_drop]

theorem of_update {waits : Nat → Wait} {w w' : Wait} {q : Nat} (h : update waits p w q = w')
    (hne : w ≠ w') : waits q = w' := by
  by_cases hq : q = p
  · subst hq
    exact absurd ((update_self ..).symm.trans h) hne
  · rwa [update_of_ne hq] at h

/-- The wait has found a replica, and joins the queue. -/
theorem Inv.enqueue (h : s.Inv) (hw : s.waits p = .checking lsn seen) :
    Core { s.setWait p (.waiting lsn seen) with
      queue := queueInsert p lsn s.queue, job := none } where
  slot_lt := h.slot_lt
  floor := h.floor
  job := trivial
  complete q l b hq := h.complete q l b (of_update hq nofun)
  returned q l b hq := h.returned q l b (of_update hq nofun)
  removals := h.removals
  queued q hq := by
    rcases mem_cons.mp ((queueInsert_perm p lsn s.queue).mem_iff.mp hq) with rfl | hold
    · exact ⟨seen, update_self ..⟩
    · obtain ⟨b, hb⟩ := h.queued q hold
      have hqp : q.1 ≠ p := by
        intro heq
        rw [heq, hw] at hb
        cases hb
      exact ⟨b, (update_of_ne hqp ..).trans hb⟩
  nodup := by
    refine (((queueInsert_perm p lsn s.queue).map Prod.fst).nodup_iff).mpr
      (nodup_cons.mpr ⟨fun hmem => ?_, h.nodup⟩)
    obtain ⟨q, hq, heq⟩ := mem_map.mp hmem
    obtain ⟨b, hb⟩ := h.queued q hq
    rw [heq, hw] at hb
    cases hb

theorem complete_eq {woken : List (Nat × Nat)} {waits : Nat → Wait}
    (h : complete woken waits p = w) :
    waits p = w ∨ ∃ lsn seen, waits p = .waiting lsn seen ∧ w = .complete lsn seen ∧
      p ∈ woken.map Prod.fst := by
  unfold complete at h
  split at h
  · next hmem =>
    split at h
    · next lsn seen hw => exact .inr ⟨lsn, seen, hw, h.symm, hmem⟩
    · exact .inl h
  · exact .inl h

/-- Who is woken has seen the moment, or it is now. -/
theorem Core.wake (h : s.Core) {all : Bool}
    (hwoken : ∀ q ∈ (wakeQueue all s.lsn s.queue).1, ∀ seen, s.waits q.1 = .waiting q.2 seen →
      seen = true ∨ s.Reached q.2) : (s.wake all).Core where
  slot_lt := h.slot_lt
  floor := h.floor
  job := trivial
  complete p lsn seen hw := by
    rcases complete_eq hw with hold | ⟨l, b, hwait, heq, hmem⟩
    · exact h.complete p lsn seen hold
    · cases heq
      obtain ⟨q, hq, rfl⟩ := mem_map.mp hmem
      obtain ⟨b', hb'⟩ := h.queued q
        (wakeQueue_append all s.lsn s.queue ▸ mem_append_left _ hq)
      rw [hwait] at hb'
      cases hb'
      exact hwoken q hq _ hwait
  returned p lsn seen hw := by
    rcases complete_eq hw with hold | ⟨l, b, -, heq, -⟩
    · exact h.returned p lsn seen hold
    · cases heq
  removals := h.removals
  queued q hq := by
    have happend := wakeQueue_append all s.lsn s.queue
    obtain ⟨seen, hw⟩ := h.queued q (happend ▸ mem_append_right _ hq)
    refine ⟨seen, ?_⟩
    change State.complete _ s.waits q.1 = _
    have hnodup := h.nodup
    rw [← happend, map_append] at hnodup
    have hnot : q.1 ∉ (wakeQueue all s.lsn s.queue).1.map Prod.fst := fun hmem =>
      (nodup_append.mp hnodup).2.2 q.1 hmem q.1 (mem_map_of_mem hq) rfl
    rw [State.complete, if_neg hnot, hw]
  nodup := by
    have hnodup := h.nodup
    rw [← wakeQueue_append all s.lsn s.queue, map_append] at hnodup
    exact (nodup_append.mp hnodup).2.1

theorem Inv.cancelWait (h : s.Inv) (hjob : s.job = none) (p : Nat) :
    (s.cancelWait p .idle).Core where
  slot_lt := h.slot_lt
  floor := h.floor
  job := jobOk_none hjob
  complete q l b hq := h.complete q l b (of_update hq nofun)
  returned q l b hq := h.returned q l b (of_update hq nofun)
  removals := h.removals
  queued q hq := by
    obtain ⟨hmem, hne⟩ := mem_filter.mp hq
    obtain ⟨b, hb⟩ := h.queued q hmem
    exact ⟨b, (update_of_ne (by simpa using hne) ..).trans hb⟩
  nodup := h.nodup.sublist (filter_sublist.map _)

/-- The file goes after a wait that has seen the moment. -/
theorem Inv.remove (h : s.Inv) (hw : s.waits p = .returned lsn seen) :
    Core { s.setWait p .idle with removals := (lsn, seen) :: s.removals } := by
  have hcore : (s.setWait p .idle).Core := by
    apply h.setWait _ _ (h.not_check _) <;> simp [hw]
  refine { hcore with removals := fun r hr => ?_ }
  rcases mem_cons.mp hr with rfl | hold
  · exact h.returned p lsn seen hw
  · exact h.removals r hold

/-! ## Steps -/

theorem Inv.checkStep (h : s.Inv) {p i : Nat} (hjob : s.job = some (.check p i))
    (hs : s.jobStep (.check p i) = some t) : t.Core := by
  have hok := h.job
  unfold JobOk at hok
  rw [hjob] at hok
  obtain ⟨lsn, seen, hw, hor⟩ := hok
  simp only [jobStep, hw] at hs
  split at hs
  · split at hs <;> cases hs
    · exact h.enqueue hw
    · next hnot =>
      exact h.toCore.setJob ⟨lsn, seen, hw, hor.imp_right fun ha => ha.succ hnot⟩
  · next hend =>
    cases hs
    have hseen : seen = true := hor.resolve_right (Ahead.not_of_le (Nat.le_of_not_lt hend))
    have hcore : Core { s with job := none } := h.toCore.setJob trivial
    exact hcore.setWait (by simp [hw]) (by simp) (by simp) (by simp) (by simp [hseen])

/-- The smallest position over the slots that are passed, with the one that is looked at. -/
theorem Inv.scanStep (h : s.Inv) {i m : Nat} {exist allActive : Bool}
    (hjob : s.job = some (.scan i m exist allActive)) (hfirst : s.FirstFound s.job)
    (hs : s.jobStep (.scan i m exist allActive) = some t) : t.Core := by
  have hok := h.job
  unfold JobOk at hok
  rw [hjob] at hok hfirst
  obtain ⟨hexist, hpassed⟩ := hok
  simp only [jobStep] at hs
  split at hs
  · split at hs <;> cases hs
    · next hreplica =>
      refine h.toCore.setJob ⟨.inl rfl, fun hactive hm => ?_⟩
      obtain ⟨hall, -⟩ := Bool.and_eq_true_iff.mp hactive
      by_cases hzero : m = 0
      · rw [if_pos (.inl hzero)]
        intro j hj hj'
        rcases Nat.lt_succ_iff_lt_or_eq.mp hj with hlt | rfl
        · exact hfirst hzero hall hreplica j hlt hj'
        · exact le_rfl
      · have hold := hpassed hall hzero
        split
        · next hless => exact hold.succ (by omega) fun _ => le_rfl
        · next hless => exact hold.succ le_rfl fun _ => by omega
    · next hnot =>
      refine h.toCore.setJob ⟨hexist.imp_right (.imp_right fun ha => ha.succ hnot),
        fun hactive hm => ?_⟩
      exact (hpassed hactive hm).succ le_rfl fun hreplica => absurd hreplica hnot
  · next hend =>
    cases hs
    refine h.toCore.setJob ⟨hexist.imp_right fun hor => ?_, fun hactive hm j hj hreplica => ?_⟩
    · exact hor.resolve_right (Ahead.not_of_le (Nat.le_of_not_lt hend))
    · exact hpassed hactive hm j (lt_of_lt_of_le hj (Nat.le_of_not_lt hend)) hreplica

theorem Inv.actStep (h : s.Inv) {m : Nat} {exist allActive : Bool}
    (hjob : s.job = some (.act m exist allActive))
    (hs : s.jobStep (.act m exist allActive) = some t) : t.Core := by
  have hok := h.job
  unfold JobOk at hok
  rw [hjob] at hok
  obtain ⟨hexist, hpassed⟩ := hok
  simp only [jobStep] at hs
  split at hs
  · next hnone =>
    cases hs
    have hall : s.AllSeen := hexist.resolve_left (by simpa using hnone)
    exact h.toCore.wake fun q _ seen hw => .inl (hall q.1 q.2 seen hw)
  · split at hs
    · cases hs
      exact h.toCore.setJob trivial
    · next hactive =>
      split at hs
      · next hlt =>
        cases hs
        have hreached : s.Passed s.maxSlots m := hpassed (by simpa using hactive) (by omega)
        have hcore : Core { s with lsn := m, job := none } :=
          { h with
            floor := fun i hi => hreached i (h.slot_lt i (isReplica_inUse hi)) hi, job := trivial }
        refine hcore.wake (s := { s with lsn := m, job := none }) fun q hq seen _ => .inr ?_
        intro i hi hreplica
        exact (le_of_woken hq).trans (hreached i hi hreplica)
      · cases hs
        exact h.toCore.setJob trivial

/-- Every step of the code keeps the invariant, before it is noted. -/
theorem Inv.stepCore {op : Op} (h : s.Inv) (hok : s.Behaved op)
    (hs : s.stepCore op = some t) : t.Core := by
  cases op <;> simp only [State.stepCore] at hs
  case createSlot i =>
    split at hs <;> cases hs
    next hguard =>
    obtain ⟨hlt, -, hlook⟩ := hguard
    refine h.setSlot_same (fun _ => hlt) (fun hr => by simp [Slot.isReplica] at hr) ?_
    rw [hlook]
    exact fun hfalse => absurd hfalse Bool.false_ne_true
  case attach i =>
    split at hs <;> cases hs
    exact h.setSlot_same (h.slot_lt i) (fun hr => ⟨hr, rfl⟩) fun _ hr => hr
  case detach i =>
    split at hs <;> cases hs
    exact h.setSlot_same (h.slot_lt i) (fun hr => ⟨hr, rfl⟩) fun _ hr => hr
  case dropSlot i =>
    split at hs <;> cases hs
    next hguard =>
    refine h.setSlot_same (fun hfalse => absurd hfalse Bool.false_ne_true)
      (fun hr => by simp [Slot.isReplica] at hr) ?_
    rw [hguard.2]
    exact fun hfalse => absurd hfalse Bool.false_ne_true
  case report i lockLsn =>
    split at hs <;> cases hs
    next hguard =>
    obtain ⟨huse, -, hne, -⟩ := hguard
    refine h.setSlot (h.slot_lt i) (fun _ => hok) (fun _ _ => ?_) fun p lsn seen hw =>
      h.complete_seen hw
    simp [Slot.isReplica, huse, hne]
  case call p lsn =>
    split at hs <;> cases hs
    next hw => apply h.setWait _ _ (h.not_check _) <;> simp [hw]
  case acquire p =>
    split at hs
    · next lsn seen hw hjob =>
      split at hs <;> cases hs
      · next hle =>
        have hreached : s.Reached lsn := fun i _ hi => hle.trans (h.floor i hi)
        have hseen : seen = true := h.noted p lsn seen (by rw [hw]; rfl) hreached
        apply h.setWait _ _ (h.not_check _) <;> simp [hw, hseen]
      · exact h.startCheck hw
    · cases hs
  case release =>
    split at hs <;> cases hs
    exact h.startScan
  case go =>
    obtain ⟨job, hjob, hs⟩ := Option.bind_eq_some_iff.mp hs
    cases job with
    | check p i => exact h.checkStep hjob hs
    | scan i m exist allActive => exact h.scanStep hjob hok hs
    | act m exist allActive => exact h.actStep hjob hs
  case woken p =>
    split at hs <;> cases hs
    next lsn seen hw =>
    have hseen := h.complete_seen hw
    apply h.setWait _ _ (h.not_check _) <;> simp [hw, hseen]
  case cancel p =>
    split at hs <;> cases hs
    · next hjob => exact h.cancelWait hjob p
    · next hjob => exact h.cancelWait hjob p
  case postmasterDeath p => exact hok.elim
  case remove p =>
    split at hs <;> cases hs
    next lsn seen hw => exact h.remove hw

theorem Inv.step {op : Op} (h : s.Inv) (hok : s.Behaved op) (hs : s.step op = some t) : t.Inv := by
  obtain ⟨u, hu, rfl⟩ := Option.map_eq_some_iff.mp hs
  exact (h.stepCore hok hu).observe

theorem Inv.run (run : Reaches State.step State.Behaved s t) (h : s.Inv) : t.Inv :=
  run.invariant State.Inv h fun _ _ _ hinv hok hs => hinv.step hok hs

theorem inv_init (maxSlots : Nat) : (State.init maxSlots).Inv where
  toCore := core_init maxSlots
  noted _ _ _ h := by cases h

end State

/-- In every run in which no replica reports less than what was taken for the position of all, and
in which the postmaster lives, a wait that returns without an error has seen a moment at which every
replica had reported its position, and so has the wait before a file went. -/
theorem wait_returns_locked {maxSlots : Nat} {s : State}
    (run : Reaches step State.Behaved (init maxSlots) s) :
    (∀ p lsn seen, s.waits p = .returned lsn seen → seen = true) ∧
      ∀ r ∈ s.removals, r.2 = true := by
  have h := State.Inv.run run (State.inv_init maxSlots)
  exact ⟨h.returned, h.removals⟩

/-- Two replicas report, and the walsender of the second wakes the backend, which removes its
file. -/
theorem wait_returns_locked_woken : ∃ s,
    Reaches step State.Behaved (init 2) s ∧ s.removals = [(80, true)] ∧
      ∀ r ∈ s.removals, r.2 = true := by
  obtain ⟨s, run, hremovals⟩ := exists_reaches_tested step State.Behaved (init 2)
    [.createSlot 0, .createSlot 1, .report 0 10, .report 1 10, .call 0 80, .acquire 0, .go,
      .report 0 90, .report 1 85, .release, .go, .go, .go, .go, .woken 0, .remove 0]
    (·.removals = [(80, true)]) (by decide +kernel)
  exact ⟨s, run, hremovals, (wait_returns_locked run).2⟩

/-- The first replica has reported 100. A second one attaches and reports 50. A wait for 80 returns
at once, and the file goes. -/
theorem wait_returns_unlocked : ∃ s,
    Reaches step (fun _ op => ∀ p, op ≠ .postmasterDeath p) (init 2) s ∧
      s.removals = [(80, false)] ∧ (s.slots 1).isReplica = true ∧ (s.slots 1).lockLsn = 50 := by
  have hview : (exec step (init 2)
      [.createSlot 0, .report 0 100, .release, .go, .go, .go, .go, .createSlot 1, .report 1 50,
        .call 0 80, .acquire 0, .remove 0]).map
      (fun s => (s.removals, (s.slots 1).isReplica, (s.slots 1).lockLsn)) =
      some ([(80, false)], true, 50) := by
    decide +kernel
  obtain ⟨s, hs, heq⟩ := Option.map_eq_some_iff.mp hview
  simp only [Prod.mk.injEq] at heq
  refine ⟨s, reaches_of_exec hs fun _ op hop p => ?_, heq⟩
  rintro rfl
  simp at hop

end Polar.SyncDdl
