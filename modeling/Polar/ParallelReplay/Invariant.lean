import Polar.ParallelReplay.System
import Mathlib.Order.Monotone.Basic
import Mathlib.Order.Nat

/-!
# What bounds the frontier

An entry that is not replayed either waits in the running queue, or is not dispatched yet. The queue
is in the order of the entries, so its head bounds both kinds, and the end of replay bounds the
entries that the dispatcher has not found.
-/

namespace Polar.ParallelReplay

open List

namespace Wal

variable (wal : Wal)

theorem start_mono : Monotone wal.start :=
  monotone_nat_of_le_succ fun i => (wal.start_lt i).le.trans (wal.stop_le i)

theorem record_mono {n m : Nat} (h : n ≤ m) : wal.record n ≤ wal.record m := by
  by_contra hlt
  have hm : m < wal.first (wal.record n) := (wal.lt_first_iff _ _).mpr (not_le.mp hlt)
  exact lt_irrefl _ ((wal.lt_first_iff _ _).mp (h.trans_lt hm))

theorem lsn_mono {n m : Nat} (h : n ≤ m) : wal.lsn n ≤ wal.lsn m :=
  wal.start_mono (wal.record_mono h)

theorem before_le_start : ∀ i, wal.before i ≤ wal.start i
  | 0 => wal.begin_le
  | i + 1 => wal.stop_le i

theorem begin_le_start (i : Nat) : wal.begin ≤ wal.start i :=
  wal.begin_le.trans (wal.start_mono (Nat.zero_le i))

theorem before_le_succ (i : Nat) : wal.before i ≤ wal.before (i + 1) :=
  (wal.before_le_start i).trans (wal.start_lt i).le

end Wal

namespace State

/-- The entry that the dispatcher hands out next. -/
def next (s : State) : Nat := s.replayPage.getD s.iter

end State

/-- How far the startup process has published. -/
structure Published (wal : Wal) (current : Nat) (half : Bool) (logged lastRead lastEnd : Nat) :
    Prop where
  logged_ge : wal.first current ≤ logged
  lastEnd_eq : lastEnd = wal.before current
  read : ∀ j < current, wal.start j ≤ lastRead
  half_logged : half = true → wal.first (current + 1) ≤ logged
  half_read : half = true → lastRead = wal.start current

namespace Published

variable {wal : Wal} {current logged lastRead lastEnd : Nat} {half : Bool}

/-- An entry that is not in the logindex starts at or after the end of replay. -/
theorem le_unlogged (h : Published wal current half logged lastRead lastEnd) {m : Nat}
    (hm : logged ≤ m) : lastEnd ≤ wal.lsn m := by
  have hrecord : current ≤ wal.record m := by
    by_contra hlt
    have := (wal.lt_first_iff current m).mpr (not_le.mp hlt)
    exact absurd (h.logged_ge.trans hm) (not_le.mpr this)
  calc lastEnd = wal.before current := h.lastEnd_eq
    _ ≤ wal.start current := wal.before_le_start _
    _ ≤ wal.lsn m := wal.start_mono hrecord

/-- So does an entry beyond the start of the last replayed record. -/
theorem le_unread (h : Published wal current half logged lastRead lastEnd) {m : Nat}
    (hm : lastRead < wal.lsn m) : lastEnd ≤ wal.lsn m := by
  have hrecord : current ≤ wal.record m := by
    by_contra hlt
    exact absurd (h.read _ (not_le.mp hlt)) (not_le.mpr hm)
  calc lastEnd = wal.before current := h.lastEnd_eq
    _ ≤ wal.start current := wal.before_le_start _
    _ ≤ wal.lsn m := wal.start_mono hrecord

end Published

/-- The running queue and what it has left to replay. -/
structure Queue (wal : Wal) (next : Nat) (running : List Task) (replayed : List Nat)
    (bgReplayed : Nat) : Prop where
  cover : ∀ n < next, n ∈ replayed ∨ ∃ t ∈ running, t.entry = n
  below : ∀ t ∈ running, t.entry < next
  sorted : running.Pairwise fun t u => t.entry ≤ u.entry
  done : ∀ t ∈ running, t.phase ≠ .running → t.entry ∈ replayed
  matched : ∀ t ∈ running, t.phase = .looked true → ∀ m, m ∉ replayed →
    wal.lsn t.entry ≤ wal.lsn m
  bg_le : ∀ m, m ∉ replayed → bgReplayed ≤ wal.lsn m

namespace Queue

variable {wal : Wal} {next : Nat} {running : List Task} {replayed : List Nat} {bgReplayed : Nat}

section

variable (h : Queue wal next running replayed bgReplayed)
include h

/-- The head of the running queue bounds all that is left to replay. -/
theorem head_le {head : Task} (hhead : running.head? = some head) {m : Nat} (hm : m ∉ replayed) :
    wal.lsn head.entry ≤ wal.lsn m := by
  have hmem : head ∈ running := mem_of_mem_head? hhead
  apply wal.lsn_mono
  by_cases hnext : m < next
  · obtain hdone | ⟨t, ht, rfl⟩ := h.cover m hnext
    · exact absurd hdone hm
    · match running, hhead, ht, h.sorted with
      | _ :: rest, hhead, ht, hsorted =>
        cases hhead
        rcases mem_cons.mp ht with rfl | ht
        · exact le_rfl
        · exact rel_of_pairwise_cons hsorted ht
  · exact (h.below head hmem).le.trans (not_lt.mp hnext)

/-- A larger frontier that is still bounded. -/
theorem advance {lsn : Nat} (hlsn : ∀ m, m ∉ replayed → lsn ≤ wal.lsn m) :
    Queue wal next running replayed (max bgReplayed lsn) :=
  { h with bg_le := fun m hm => max_le (h.bg_le m hm) (hlsn m hm) }

theorem add : Queue wal (next + 1) (running ++ [⟨next, .running⟩]) replayed bgReplayed where
  cover := by
    intro n hn
    rcases Nat.lt_succ_iff_lt_or_eq.mp hn with hlt | rfl
    · exact (h.cover n hlt).imp_right fun ⟨t, ht, he⟩ => ⟨t, mem_append_left _ ht, he⟩
    · exact .inr ⟨_, mem_append_right _ (mem_singleton_self _), rfl⟩
  below := forall_mem_append.mpr ⟨fun t ht => Nat.lt_succ_of_lt (h.below t ht),
    forall_mem_singleton.mpr (Nat.lt_succ_self next)⟩
  sorted := by
    refine pairwise_append.mpr ⟨h.sorted, pairwise_singleton _ _, ?_⟩
    intro t ht u hu
    rw [mem_singleton.mp hu]
    exact (h.below t ht).le
  done := forall_mem_append.mpr ⟨h.done, forall_mem_singleton.mpr fun hphase => absurd rfl hphase⟩
  matched := forall_mem_append.mpr ⟨h.matched, forall_mem_singleton.mpr (by simp)⟩
  bg_le := h.bg_le

theorem erase {k : Nat} {t : Task} (hk : running[k]? = some t) (hphase : t.phase = .finished) :
    Queue wal next (running.eraseIdx k) replayed bgReplayed where
  cover := by
    intro n hn
    obtain hdone | ⟨u, hu, rfl⟩ := h.cover n hn
    · exact .inl hdone
    · by_cases hkeep : u ∈ running.eraseIdx k
      · exact .inr ⟨u, hkeep, rfl⟩
      · -- The only task that is not kept is the finished one.
        obtain ⟨i, hi⟩ := mem_iff_getElem?.mp hu
        have hik : i = k := by
          by_contra hne
          exact hkeep (mem_eraseIdx_iff_getElem?.mpr ⟨i, hne, hi⟩)
        rw [hik, hk] at hi
        cases hi
        exact .inl (h.done t hu (by simp [hphase]))
  below t ht := h.below t (mem_of_mem_eraseIdx ht)
  sorted := h.sorted.sublist (eraseIdx_sublist _ _)
  done t ht := h.done t (mem_of_mem_eraseIdx ht)
  matched t ht := h.matched t (mem_of_mem_eraseIdx ht)
  bg_le := h.bg_le

end

/-- The entries of the queue, in their order, do not depend on the phases. -/
theorem map_entry_set {k : Nat} {t : Task} (hk : running[k]? = some t) (phase : Phase) :
    (running.set k ⟨t.entry, phase⟩).map Task.entry = running.map Task.entry := by
  obtain ⟨hlt, rfl⟩ := List.getElem?_eq_some_iff.mp hk
  apply ext_getElem?
  intro i
  rw [List.getElem?_map, List.getElem?_map, List.getElem?_set]
  split
  · next heq => subst heq; simp [hlt]
  · rfl

/-- A task goes on, and its entry may become replayed. -/
theorem set (h : Queue wal next running replayed bgReplayed) {k : Nat} {t : Task} {phase : Phase}
    {replayed' : List Nat} (hk : running[k]? = some t) (hsub : replayed ⊆ replayed')
    (hdone : phase ≠ .running → t.entry ∈ replayed')
    (hmatched : phase = .looked true → ∀ m, m ∉ replayed' → wal.lsn t.entry ≤ wal.lsn m) :
    Queue wal next (running.set k ⟨t.entry, phase⟩) replayed' bgReplayed := by
  have hentries := map_entry_set hk phase
  constructor
  · intro n hn
    refine (h.cover n hn).imp (fun hdone => hsub hdone) fun hrunning => ?_
    exact mem_map.mp (hentries ▸ mem_map.mpr hrunning)
  · intro u hu
    obtain ⟨v, hv, he⟩ := mem_map.mp (hentries ▸ mem_map_of_mem hu)
    exact he ▸ h.below v hv
  · have hsorted := pairwise_map.mpr h.sorted
    exact pairwise_map.mp (hentries.symm ▸ hsorted)
  · intro u hu hphase
    rcases mem_or_eq_of_mem_set hu with hu | rfl
    · exact hsub (h.done u hu hphase)
    · exact hdone hphase
  · intro u hu hphase m hm
    rcases mem_or_eq_of_mem_set hu with hu | rfl
    · exact h.matched u hu hphase m fun hdone => hm (hsub hdone)
    · exact hmatched hphase m hm
  · exact fun m hm => h.bg_le m fun hdone => hm (hsub hdone)

end Queue

/-- The dispatcher has an entry in hand, a sample of the end of replay, and the last LSN that it has
dispatched. -/
structure Loop (wal : Wal) (s : State) : Prop where
  page : ∀ n, s.replayPage = some n → n + 1 = s.iter
  sampled : s.xlogReplayed ≤ s.lastEnd
  dispatched : ∀ m, s.next ≤ m → s.maxDispatched ≤ wal.lsn m
  /-- When there is nothing to dispatch, the sample bounds what is not dispatched. -/
  tail : s.pc = .tail true ∨ s.pc = .advance → ∀ m, s.next ≤ m → s.xlogReplayed ≤ wal.lsn m
  empty : s.pc = .advance → s.running = []

/-- What every run keeps of the frontier. -/
structure Inv (wal : Wal) (s : State) : Prop where
  published : Published wal s.current s.half s.logged s.lastRead s.lastEnd
  queue : Queue wal s.next s.running s.replayed s.bgReplayed
  loop : Loop wal s

namespace Inv

variable {wal : Wal} {s t : State}

theorem init (wal : Wal) (redo numBackends : Nat) : Inv wal (State.init wal redo numBackends) where
  published :=
    { logged_ge := by
        by_contra h
        exact absurd ((wal.lt_first_iff 0 0).mp (not_le.mp h)) (Nat.not_lt_zero _)
      lastEnd_eq := rfl
      read := by simp [State.init]
      half_logged := by simp [State.init]
      half_read := by simp [State.init] }
  queue :=
    { cover := by simp [State.init, State.next]
      below := by simp [State.init]
      sorted := List.Pairwise.nil
      done := by simp [State.init]
      matched := by simp [State.init]
      bg_le := fun m _ => wal.begin_le_start _ }
  loop :=
    { page := by simp [State.init]
      sampled := Nat.zero_le _
      dispatched := fun _ _ => Nat.zero_le _
      tail := by simp [State.init]
      empty := by simp [State.init] }

section

variable (h : Inv wal s)
include h

theorem startup : Inv wal (startupStep wal s) := by
  obtain ⟨hp, hq, hl⟩ := h
  unfold startupStep
  split
  · next hhalf =>
    refine ⟨⟨hp.half_logged hhalf, rfl, ?_, by simp, by simp⟩, hq, ?_⟩
    · intro j hj
      rcases Nat.lt_succ_iff_lt_or_eq.mp hj with hj | rfl
      · exact hp.read j hj
      · exact (hp.half_read hhalf).ge
    · refine { hl with sampled := hl.sampled.trans ?_ }
      rw [hp.lastEnd_eq]
      exact wal.before_le_succ s.current
  · next hhalf =>
    split
    · refine ⟨⟨hp.logged_ge.trans (Nat.le_succ _), hp.lastEnd_eq, hp.read, ?_, ?_⟩, hq, { hl with }⟩
      · exact fun htrue => absurd htrue hhalf
      · exact fun htrue => absurd htrue hhalf
    · next hlogged =>
      refine ⟨⟨hp.logged_ge, hp.lastEnd_eq, ?_, fun _ => not_lt.mp hlogged, fun _ => rfl⟩, hq,
        { hl with }⟩
      exact fun j hj => wal.start_mono hj.le

/-- The dispatcher goes to another place, where nothing is claimed of the sample. -/
theorem goto {pc : Pc} (htail : pc ≠ .tail true) (hadvance : pc ≠ .advance) :
    Inv wal { s with pc } :=
  { h with
    loop :=
      { h.loop with
        tail := fun hpc => absurd hpc (by simp [htail, hadvance])
        empty := fun hpc => absurd hpc hadvance } }

/-- The dispatcher finds nothing to dispatch. -/
theorem goto_tail (htail : ∀ m, s.next ≤ m → s.xlogReplayed ≤ wal.lsn m) :
    Inv wal { s with pc := .tail true } :=
  { h with loop := { h.loop with tail := fun _ => htail, empty := fun hpc => nomatch hpc } }

theorem sample {lsn : Nat} {pc : Pc} (hlsn : lsn ≤ s.lastEnd)
    (htail : pc ≠ .tail true) (hadvance : pc ≠ .advance) :
    Inv wal { s with xlogReplayed := lsn, pc } :=
  { h with
    loop :=
      { h.loop with
        sampled := hlsn
        tail := fun hpc => absurd hpc (by simp [htail, hadvance])
        empty := fun hpc => absurd hpc hadvance } }

theorem dispatchLoop {batch : Nat} (hs : dispatchLoop wal batch s = some t) : Inv wal t := by
  unfold ParallelReplay.dispatchLoop at hs
  split at hs
  · split at hs <;> cases hs
    · exact h.sample le_rfl (by simp) (by simp)
    · exact h.goto (by simp) (by simp)
  · split at hs
    · cases hs
      exact h.goto (by simp) (by simp)
    · next hpage =>
      have hnext : s.next = s.iter := by simp [State.next, hpage]
      split at hs <;> cases hs
      · obtain ⟨hp, hq, hl⟩ := h
        refine ⟨hp, hnext ▸ hq, ?_⟩
        constructor
        · exact fun n hn => congrArg (· + 1) (Option.some.inj hn).symm
        · exact hl.sampled
        · exact hnext ▸ hl.dispatched
        · exact fun hpc => by simp at hpc
        · exact fun hpc => nomatch hpc
      · next hiter =>
        apply h.goto_tail
        intro m hm
        exact h.loop.sampled.trans
          (h.published.le_unlogged ((not_lt.mp hiter).trans (hnext ▸ hm)))
  · obtain ⟨n, hpage, rfl⟩ := Option.map_eq_some_iff.mp hs
    have hnext : s.next = n := by simp [State.next, hpage]
    split
    · next hread =>
      apply h.goto_tail
      intro m hm
      have hn : s.lastEnd ≤ wal.lsn n := h.published.le_unread hread
      exact h.loop.sampled.trans (hn.trans (wal.lsn_mono (hnext ▸ hm)))
    · exact h.goto (by simp) (by simp)
  · obtain ⟨n, hpage, rfl⟩ := Option.map_eq_some_iff.mp hs
    have hnext : s.next = n := by simp [State.next, hpage]
    have hiter : n + 1 = s.iter := h.loop.page n hpage
    obtain ⟨hp, hq, hl⟩ := h
    refine ⟨hp, ?_, ?_⟩
    · have := (hnext ▸ hq).add
      exact hiter ▸ this
    · constructor
      · exact fun _ hn => nomatch hn
      · exact hl.sampled
      · intro m hm
        exact wal.lsn_mono ((Nat.le_succ n).trans (hiter.le.trans hm))
      · exact fun hpc => by simp at hpc
      · exact fun hpc => nomatch hpc
  · cases hs

/-- When the queue is empty, what is not replayed is not dispatched. -/
theorem next_le (hempty : s.running = []) {m : Nat} (hm : m ∉ s.replayed) : s.next ≤ m := by
  by_contra hlt
  obtain hdone | ⟨t, ht, -⟩ := h.queue.cover m (not_le.mp hlt)
  · exact hm hdone
  · rw [hempty] at ht
    cases ht

theorem dispatch {batch : Nat} (hs : dispatchStep wal batch s = some t) : Inv wal t := by
  unfold dispatchStep at hs
  split at hs
  · cases hs
    exact h.sample (Nat.zero_le _) (by simp) (by simp)
  · cases hs
    exact h.goto (by simp) (by simp)
  · next done hpc =>
    split at hs <;> cases hs
    · next hdone =>
      obtain ⟨rfl, hempty⟩ := Bool.and_eq_true_iff.mp hdone
      exact { h with
        loop :=
          { h.loop with
            tail := fun _ => h.loop.tail (.inl hpc)
            empty := fun _ => isEmpty_iff.mp hempty } }
    · exact h.goto (by simp) (by simp)
  · next hpc =>
    cases hs
    have hempty := h.loop.empty hpc
    have hgoto := h.goto (show Pc.readBg ≠ .tail true by simp) (by simp)
    refine ⟨h.published, h.queue.advance fun m hm => ?_, { hgoto.loop with }⟩
    have hm := h.next_le hempty hm
    exact max_le (h.loop.tail (.inr hpc) m hm) (h.loop.dispatched m hm)
  · cases hs
    exact h.goto (by simp) (by simp)
  · split at hs <;> cases hs
    · exact h.goto (by simp) (by simp)
    · exact h.goto (by simp) (by simp)
  · split at hs <;> cases hs
    · have := h.goto (show Pc.idle ≠ .tail true by simp) (by simp)
      exact ⟨this.published, this.queue, { this.loop with }⟩
    · exact h.goto (by simp) (by simp)
  · cases hs
  · exact h.dispatchLoop hs

theorem remove {k : Nat} (hs : removeStep s k = some t) : Inv wal t := by
  unfold removeStep at hs
  split at hs
  · next hpc hk =>
    cases hs
    refine ⟨h.published, h.queue.erase hk rfl, { h.loop with empty := ?_ }⟩
    exact fun hadvance => by simp [hpc] at hadvance
  · next hpc hk =>
    cases hs
    refine ⟨h.published, h.queue.erase hk rfl, { h.loop with empty := ?_ }⟩
    exact fun hadvance => by simp [hpc] at hadvance
  · cases hs

end

/-- The steps of a task change nothing of the loop: while the dispatcher goes to advance the
frontier, there is no task. -/
theorem loop_setPhase (h : Inv wal s) {k : Nat} {task : Task} (hk : s.running[k]? = some task)
    (phase : Phase) : Loop wal (setPhase s k task phase) := by
  refine { h.loop with empty := fun hpc => ?_ }
  rw [h.loop.empty hpc] at hk
  cases hk

theorem exists_head_of_headMatches {n : Nat} (h : headMatches wal s n = true) :
    ∃ head, s.running.head? = some head ∧ wal.lsn head.entry = wal.lsn n := by
  unfold headMatches at h
  cases hhead : s.running.head? with
  | none => simp [hhead] at h
  | some head =>
    refine ⟨head, rfl, ?_⟩
    simpa [hhead] using h

theorem task {k : Nat} (h : Inv wal s) (hs : taskStep wal s k = some t) : Inv wal t := by
  unfold taskStep at hs
  split at hs
  · cases hs
  · next task hk =>
    have hmem : task ∈ s.running := mem_of_getElem? hk
    have hrefl : s.replayed ⊆ s.replayed := fun _ hn => hn
    split at hs
    · cases hs
      refine ⟨h.published, ?_, { h.loop_setPhase hk .replayed with }⟩
      exact h.queue.set hk (fun n hn => mem_cons_of_mem _ hn) (fun _ => mem_cons_self)
        (fun hphase => nomatch hphase)
    · next hphase =>
      cases hs
      refine ⟨h.published, h.queue.set hk hrefl ?_ ?_, h.loop_setPhase hk _⟩
      · exact fun _ => h.queue.done task hmem (by simp [hphase])
      · intro hlooked m hm
        obtain ⟨head, hhead, heq⟩ := exists_head_of_headMatches (Phase.looked.inj hlooked)
        exact heq ▸ h.queue.head_le hhead hm
    · next hphase =>
      cases hs
      refine ⟨h.published, ?_, { h.loop_setPhase hk .finished with }⟩
      apply (h.queue.set hk hrefl _ _).advance
      · exact h.queue.matched task hmem hphase
      · exact fun _ => h.queue.done task hmem (by simp [hphase])
      · exact fun hlooked => nomatch hlooked
    · next hphase =>
      cases hs
      refine ⟨h.published, h.queue.set hk hrefl ?_ ?_, h.loop_setPhase hk _⟩
      · exact fun _ => h.queue.done task hmem (by simp [hphase])
      · exact fun hlooked => nomatch hlooked
    · cases hs

theorem backend {b : Nat} {f : Backend → Option Backend} (h : Inv wal s)
    (hs : backendStep s b f = some t) : Inv wal t := by
  obtain ⟨new, -, rfl⟩ := Option.map_eq_some_iff.mp hs
  exact ⟨h.published, h.queue, { h.loop with }⟩

theorem step {batch : Nat} {op : Op} (h : Inv wal s) (hs : step wal batch s op = some t) :
    Inv wal t := by
  cases op with
  | startup => cases hs; exact h.startup
  | dispatch => exact h.dispatch hs
  | remove k => exact h.remove hs
  | full =>
    simp only [ParallelReplay.step, fullStep] at hs
    split at hs <;> cases hs
    exact h.goto (by simp) (by simp)
  | task k => exact h.task hs
  | checkpoint lsn =>
    simp only [ParallelReplay.step] at hs
    split at hs <;> cases hs
    exact ⟨h.published, h.queue, { h.loop with }⟩
  | announce b blocks | invalidPage b | block b | abort b => exact h.backend hs

end Inv

end Polar.ParallelReplay
