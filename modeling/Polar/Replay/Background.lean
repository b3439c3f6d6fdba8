import Polar.Replay.Parsed

/-!
# The background worker

The worker goes through the records in the order of their LSNs, applies each of them to its pages
that are buffered, and advances `bg_replayed_lsn`. It leaves a page alone that is being read or
replayed, and relies on the replay to get to the record.
-/

namespace Polar.Replay

open Option List

open Option (map_eq_some_iff bind_eq_some_iff bind_some map_some)

variable {wal : Wal} {s t : State}

/-- The worker is done with page `p` for record `i`. -/
def State.Processed (wal : Wal) (s : State) (p i : Nat) : Prop :=
  wal.Touches i p ∧ (i < s.workerRecord ∨
    i = s.workerRecord ∧ p ∈ (wal.record i).pages.take s.workerBlock)

namespace Work

/-- The replay of the page has begun at least once. -/
def begun : Work → Bool
  | .none | .reading | .read _ | .probed _ _ => false
  | _ => true

end Work

/-- What is known of the records `P` that the worker is done with. -/
def BgWork (wal : Wal) (P : Nat → Prop) (d : Desc) : Work → Prop
  | .none => d.valid = true → ∀ i, P i → i ∈ d.applied
  | .content | .startup | .finished => ∀ i, P i → i ∈ d.applied
  | .reading | .read _ | .probed _ _ | .enter _ | .waiting _ | .locked _ | .noLock _ => True
  | .lockedEnd _ stop | .sampled _ stop =>
    ∀ i, P i → i ∈ d.applied ∨ d.outdate = true ∨ (wal.record i).start < stop
  | .applied _ => ∀ i, P i → i ∈ d.applied ∨ d.outdate = true

/-- What holds of a page and the records that the worker is past. -/
structure BgPage (wal : Wal) (P : Nat → Prop) (d : Desc) : Prop where
  work : BgWork wal P d d.work
  readEnd : d.readEnd = (d.valid || d.work.begun)

theorem Wal.touches_of_pageAt {i k p : Nat} (hp : wal.pageAt i k = some p) : wal.Touches i p := by
  obtain ⟨b, hb, rfl⟩ := map_eq_some_iff.mp hp
  exact mem_map_of_mem (mem_of_getElem? hb)

namespace BgPage

variable {P P' : Nat → Prop} {d d' : Desc} {sh : Shared} {p : Nat}

theorem init : BgPage wal P .init where
  work hvalid := by cases hvalid
  readEnd := rfl

theorem mark (h : BgPage wal P d) (r : Record) : BgPage wal P (d.mark r) := by
  refine ⟨?_, h.readEnd⟩
  have hwork := h.work
  show BgWork wal P (d.mark r) d.work
  cases hw : d.work <;> rw [hw] at hwork <;> try exact hwork
  case lockedEnd => exact fun _ _ => .inr (.inl rfl)
  case sampled => exact fun _ _ => .inr (.inl rfl)
  case applied => exact fun _ _ => .inr rfl

/-- Fewer records. -/
theorem mono (h : BgPage wal P d) (hP : ∀ i, P' i → P i) : BgPage wal P' d := by
  refine ⟨?_, h.readEnd⟩
  have hwork := h.work
  cases hd : d.work <;> rw [hd] at hwork
  case none => exact fun hvalid i hi => hwork hvalid i (hP i hi)
  all_goals first
    | trivial
    | exact fun i hi => hwork i (hP i hi)

/-- Another record is done with; on an idle page it has been applied. -/
theorem extend (h : BgPage wal P d) {w : Nat} (hP : ∀ i, P' i → P i ∨ i = w)
    (hw : BgWork wal (fun i => i = w) d d.work) : BgPage wal P' d := by
  refine ⟨?_, h.readEnd⟩
  have hwork := h.work
  have both : ∀ {Q : Nat → Prop}, (∀ i, P i → Q i) → (∀ i, i = w → Q i) → ∀ i, P' i → Q i :=
    fun hold hnew i hi => (hP i hi).elim (hold i) (hnew i)
  cases hd : d.work <;> rw [hd] at hwork hw
  case none => exact fun hvalid => both (hwork hvalid) (hw hvalid)
  case content => exact both hwork hw
  case startup => exact both hwork hw
  case finished => exact both hwork hw
  case lockedEnd => exact both hwork hw
  case sampled => exact both hwork hw
  case applied => exact both hwork hw
  all_goals trivial

/-- Whoever works on the page goes on. -/
theorem next (h : BgPage wal P d) (hpage : PageOk wal sh p d) (hsh : SharedOk wal sh)
    (hP : ∀ i, P i → wal.Touches i p ∧ i < sh.replayed) (hs : d.next wal sh p = some d') :
    BgPage wal P d' := by
  have hwork := h.work
  have hread := h.readEnd
  cases hw : d.work <;> simp only [Desc.next, hw] at hs hwork hread
  case none => cases hs
  case reading => cases hs
  case startup => cases hs
  case read start =>
    cases hs
    exact ⟨trivial, hread⟩
  case probed start arm =>
    cases hs
    exact ⟨trivial, by simp [Desc.begin, Work.begun]⟩
  case content =>
    split at hs <;> cases hs
    · exact ⟨trivial, by simp [Desc.begin, Work.begun]⟩
    · have hvalid : d.valid = true := hpage.locks (by rw [hw]; rfl)
      exact ⟨fun _ => hwork, by simpa [hvalid] using hread⟩
  case enter start =>
    split at hs <;> cases hs
    · exact ⟨trivial, hread⟩
    · exact ⟨trivial, hread⟩
  case waiting start =>
    split at hs <;> cases hs
    exact ⟨trivial, hread⟩
  case locked start =>
    cases hs
    refine ⟨fun i hi => .inr (.inr ?_), hread⟩
    obtain ⟨_, hlt⟩ := hP i hi
    have htable : p ∈ sh.table := hpage.refs (by rw [hw]; rfl)
    have hidle : sh.stage ≠ .idle := fun e => by
      simpa [e, Stage.saved] using (hsh.active p htable).1
    split
    · rw [hsh.replayEnd hidle]
      exact Wal.start_lt_stop_iff.mpr (Nat.lt_succ_iff.mp (hlt.trans_le sh.replayed_le))
    · exact (hsh.lastReplayed i).mpr hlt
  case lockedEnd start stop =>
    cases hs
    exact ⟨hwork, hread⟩
  case noLock start =>
    cases hs
    exact ⟨fun i hi => .inr (.inr ((hsh.lastReplayed i).mpr (hP i hi).2)), hread⟩
  case sampled start stop =>
    cases hs
    have hok := hpage.work
    rw [hw] at hok
    obtain ⟨lsn, applied, upto, heq, hsub, hle, hall, _⟩ :=
      applyPage_spec hpage.closed hok.1 hok.2.2.1
    rw [heq]
    refine ⟨fun i hi => ?_, hread⟩
    rcases hwork i hi with hmem | hout | hlt
    · exact .inl (hsub hmem)
    · exact .inr hout
    · exact .inl (hall i (hP i hi).1 (hlt.trans_le hle))
  case applied start =>
    cases hs
    unfold Desc.check
    split
    · exact ⟨trivial, hread⟩
    · next hout =>
      have happlied : ∀ i, P i → i ∈ d.applied := fun i hi => (hwork i hi).resolve_right hout
      split
      · exact ⟨happlied, hread⟩
      · exact ⟨happlied, hread⟩
  case finished =>
    cases hs
    refine ⟨fun _ => hwork, ?_⟩
    rw [hread]
    simp [Work.begun]

end BgPage

/-- A page that the worker has pinned stays buffered, and what the worker has seen of it stays. -/
def WorkerOk (page : Option Desc) : WorkerStage → Prop
  | .next => True
  | .pinned valid => ∃ d, page = some d ∧ (valid = true → d.valid = true)
  | .check | .need => ∃ d, page = some d ∧ d.readEnd = true

/-- What every run keeps of the background worker. -/
structure BgInv (wal : Wal) (s : State) : Prop where
  inv : Inv wal s
  pages : ∀ p d, s.pages p = some d → BgPage wal (s.Processed wal p) d
  progress : ∀ p i, s.Processed wal p i → i < s.shared.replayed
  bg : ∀ i, (wal.record i).start < s.shared.bgReplayed → i < s.workerRecord
  worker : ∀ p, wal.pageAt s.workerRecord s.workerBlock = some p → WorkerOk (s.pages p) s.worker
  turn : s.worker ≠ .next → s.workerRecord < s.shared.replayed

/-- A page keeps what the worker may have seen. -/
def Desc.Keeps (d d' : Desc) : Prop :=
  (d.valid = true → d'.valid = true) ∧ (d.readEnd = true → d'.readEnd = true)

theorem WorkerOk.mono {page page' : Option Desc} {stage : WorkerStage} (h : WorkerOk page stage)
    (hkeeps : ∀ d, page = some d → ∃ d', page' = some d' ∧ d.Keeps d') : WorkerOk page' stage := by
  cases stage with
  | next => trivial
  | pinned valid =>
    obtain ⟨d, hd, hvalid⟩ := h
    obtain ⟨d', hd', hkeep⟩ := hkeeps d hd
    exact ⟨d', hd', fun hv => hkeep.1 (hvalid hv)⟩
  | check | need =>
    obtain ⟨d, hd, hread⟩ := h
    obtain ⟨d', hd', hkeep⟩ := hkeeps d hd
    exact ⟨d', hd', hkeep.2 hread⟩

theorem Desc.next_keeps {d d' : Desc} {sh : Shared} {p : Nat} (hs : d.next wal sh p = some d') :
    d.Keeps d' := by
  cases hw : d.work <;> simp only [Desc.next, hw] at hs
  case sampled start stop =>
    cases hs
    obtain ⟨lsn, applied, heq, _⟩ := foldl_applyRecord wal ((sh.logged p).filter fun i =>
      max start d.lsn ≤ (wal.record i).start ∧ (wal.record i).start < stop) d
    simp only [Desc.applyPage, heq]
    split <;> exact ⟨id, id⟩
  case applied start =>
    cases hs
    unfold Desc.check
    split
    · exact ⟨id, id⟩
    · split <;> exact ⟨id, id⟩
  case probed => cases hs; exact ⟨id, fun _ => rfl⟩
  case content =>
    split at hs <;> cases hs
    · exact ⟨id, fun _ => rfl⟩
    · exact ⟨id, id⟩
  case enter => split at hs <;> cases hs <;> exact ⟨id, id⟩
  case waiting => split at hs <;> cases hs; exact ⟨id, id⟩
  case finished => cases hs; exact ⟨fun _ => rfl, id⟩
  all_goals
    cases hs
    try exact ⟨id, id⟩

namespace BgInv

theorem init {lastReplayed bgReplayed : Nat} (hle : lastReplayed ≤ (wal.record 0).start)
    (hbg : bgReplayed ≤ (wal.record 0).start) : BgInv wal (.init lastReplayed bgReplayed) where
  inv := .init hle bgReplayed
  pages p d hd := by cases hd
  progress p i hi := by
    rcases hi.2 with hlt | ⟨_, hmem⟩
    · exact absurd hlt (Nat.not_lt_zero i)
    · simp [State.init] at hmem
  bg i hi := by
    rcases Nat.eq_zero_or_pos i with rfl | hpos
    · exact absurd hi (Nat.not_lt.mpr hbg)
    · exact absurd (hi.trans_le hbg) (Nat.not_lt.mpr (Wal.start_lt_start_iff.mpr hpos).le)
  worker p _ := trivial
  turn hne := absurd rfl hne

variable (h : BgInv wal s)
include h

theorem startup (hs : s.startupStep wal = some t) : BgInv wal t := by
  obtain ⟨hinv, m⟩ := h.inv.startupStep hs
  have hprocessed : ∀ p i, t.Processed wal p i ↔ s.Processed wal p i := by
    intro p i
    simp only [State.Processed, m.workerRecord, m.workerBlock]
  refine ⟨hinv, ?_, ?_, ?_, ?_, ?_⟩
  · intro q d' hd'
    cases hd : s.pages q with
    | none => exact absurd ((m.absent q hd).symm.trans hd') (by simp)
    | some d =>
      obtain ⟨e, he, hmoves⟩ := m.present q d hd
      obtain rfl : e = d' := some.inj (he.symm.trans hd')
      have hP : t.Processed wal q = s.Processed wal q := funext fun i => propext (hprocessed q i)
      rw [hP]
      have hbg := h.pages q d hd
      have hwork := hbg.work
      have hread := hbg.readEnd
      rcases hmoves with rfl | rfl | ⟨hnone, hvalid, rfl⟩ | ⟨hstartup, rfl⟩
      · exact hbg
      · exact hbg.mark _
      · rw [hnone] at hwork hread
        exact ⟨hwork hvalid, by simpa [hvalid, Work.begun] using hread⟩
      · rw [hstartup] at hwork hread
        have hvalid : d.valid = true := (h.inv.pages q d hd).locks (by rw [hstartup]; rfl)
        apply BgPage.mark
        exact ⟨fun _ => hwork, by simpa [hvalid, Work.begun] using hread⟩
  · intro p i hi
    exact (h.progress p i ((hprocessed p i).mp hi)).trans_le m.replayed
  · intro i hi
    rw [m.bgReplayed] at hi
    rw [m.workerRecord]
    exact h.bg i hi
  · intro p hp
    rw [m.workerRecord, m.workerBlock] at hp
    rw [m.worker]
    apply (h.worker p hp).mono
    intro d hd
    obtain ⟨d', hd', hmoves⟩ := m.present p d hd
    refine ⟨d', hd', ?_⟩
    rcases hmoves with rfl | rfl | ⟨_, _, rfl⟩ | ⟨_, rfl⟩ <;> exact ⟨id, id⟩
  · intro hne
    rw [m.worker] at hne
    rw [m.workerRecord]
    exact (h.turn hne).trans_le m.replayed

theorem setPage {p : Nat} {d : Desc} (hinv : Inv wal (s.setPage p d))
    (hbg : BgPage wal (s.Processed wal p) d)
    (hkeeps : ∀ e, s.pages p = some e → e.Keeps d) : BgInv wal (s.setPage p d) where
  inv := hinv
  pages q e he := by
    by_cases hq : q = p
    · subst hq
      obtain rfl : d = e := by simpa [State.setPage] using he
      exact hbg
    · exact h.pages q e (by simpa [State.setPage, hq] using he)
  progress := h.progress
  bg := h.bg
  worker q hq := by
    apply (h.worker q hq).mono
    intro e he
    by_cases hqp : q = p
    · subst hqp
      exact ⟨d, by simp [State.setPage], hkeeps e he⟩
    · exact ⟨e, by simpa [State.setPage, hqp] using he, id, id⟩
  turn := h.turn

/-- The page is evicted, which the worker has not pinned. -/
theorem removePage {p : Nat} (hinv : Inv wal { s with pages := Function.update s.pages p none })
    (hpins : s.worker = .next ∨ wal.pageAt s.workerRecord s.workerBlock ≠ some p) :
    BgInv wal { s with pages := Function.update s.pages p none } where
  inv := hinv
  pages q e he := by
    by_cases hq : q = p
    · subst hq
      simp at he
    · exact h.pages q e (by simpa [hq] using he)
  progress := h.progress
  bg := h.bg
  worker q hq := by
    rcases hpins with hnext | hne
    · rw [hnext]
      trivial
    · apply (h.worker q hq).mono
      intro e he
      have hqp : q ≠ p := fun e => hne (e ▸ hq)
      exact ⟨e, by simpa [hqp] using he, id, id⟩
  turn := h.turn

/-- The worker only looks, and stays at its block. -/
theorem setWorker {stage : WorkerStage} (hturn : stage ≠ .next → s.workerRecord < s.shared.replayed)
    (hworker : ∀ p, wal.pageAt s.workerRecord s.workerBlock = some p →
      WorkerOk (s.pages p) stage) : BgInv wal { s with worker := stage } :=
  { h with inv := ⟨h.inv.shared, h.inv.pages, h.inv.cleanup⟩, worker := hworker, turn := hturn }

theorem nextBlock {p : Nat} (hp : wal.pageAt s.workerRecord s.workerBlock = some p)
    (hlt : s.workerRecord < s.shared.replayed)
    (hdone : ∀ d, s.pages p = some d → BgWork wal (fun i => i = s.workerRecord) d d.work) :
    BgInv wal s.nextBlock := by
  have hprocessed : ∀ q i, s.nextBlock.Processed wal q i →
      s.Processed wal q i ∨ i = s.workerRecord ∧ q = p := by
    rintro q i ⟨ht, hlt | ⟨rfl, hmem⟩⟩
    · exact .inl ⟨ht, .inl hlt⟩
    · rcases (Wal.mem_take_succ hp).mp hmem with hmem | rfl
      · exact .inl ⟨ht, .inr ⟨rfl, hmem⟩⟩
      · exact .inr ⟨rfl, rfl⟩
  refine ⟨{ h.inv with }, ?_, ?_, h.bg, fun _ _ => trivial,
    fun hne => absurd rfl hne⟩
  · intro q d hd
    by_cases hq : q = p
    · subst hq
      exact (h.pages q d hd).extend (fun i hi => (hprocessed q i hi).imp_right (·.1)) (hdone d hd)
    · have hP : s.nextBlock.Processed wal q = s.Processed wal q := by
        funext i
        apply propext
        constructor
        · intro hi
          exact (hprocessed q i hi).resolve_right fun hi => hq hi.2
        · rintro ⟨ht, hlt | ⟨rfl, hmem⟩⟩
          · exact ⟨ht, .inl hlt⟩
          · exact ⟨ht, .inr ⟨rfl, (Wal.mem_take_succ hp).mpr (.inl hmem)⟩⟩
      rw [hP]
      exact h.pages q d hd
  · intro q i hi
    rcases hprocessed q i hi with hi | ⟨rfl, _⟩
    · exact h.progress q i hi
    · exact hlt

end BgInv

/-- A replay of the page has sampled its upper bound too early to get to record `i`, and the page
has not been marked since. -/
def Desc.Misses (wal : Wal) (d : Desc) (i : Nat) : Prop :=
  d.outdate = false ∧
    match d.work with
    | .lockedEnd _ stop | .sampled _ stop | .applied stop => stop ≤ (wal.record i).start
    | _ => False

instance (d : Desc) (i : Nat) : Decidable (d.Misses wal i) := by
  unfold Desc.Misses
  cases d.work <;> exact inferInstance

/-- The worker has to do with a page only when `lastReplayedEndRecPtr` covers its record, and does
not look at the redo state of the page when a replay of it that is under way misses the record. -/
def SkipOk (wal : Wal) (s : State) : Op → Prop
  | .worker => ∀ p ∈ wal.pageAt s.workerRecord s.workerBlock,
      (wal.record s.workerRecord).start < s.shared.lastReplayed ∧
        (s.worker = .pinned false ∨ s.worker = .check → ∀ d ∈ s.pages p,
          ¬ d.Misses wal s.workerRecord)
  | _ => True

namespace BgInv

section

variable (h : BgInv wal s)
include h

/-- The worker leaves a page alone that has the record, or will get it. -/
theorem skip {p w : Nat} {d : Desc} (hd : s.pages p = some d)
    (hw : wal.Touches w p) (hlt : w < s.shared.replayed) (hmiss : ¬ d.Misses wal w)
    (hskip : d.readEnd = true → d.replaying = false → d.outdate = false ∨ w ∈ d.applied) :
    BgWork wal (fun i => i = w) d d.work := by
  have hok := h.inv.pages p d hd
  have hwork := hok.work
  have hreplaying := hok.replaying
  have hread := (h.pages p d hd).readEnd
  have hseen : s.shared.Seen wal p w := ⟨hw, .inl hlt⟩
  have settled : d.Settled wal s.shared p → d.readEnd = true → d.replaying = false →
      ∀ i, i = w → i ∈ d.applied := by
    rintro hsettled hread hreplaying i rfl
    rcases hskip hread hreplaying with hout | hmem
    · exact (hsettled.2 i hseen).resolve_right (by simp [hout])
    · exact hmem
  -- a replay that has sampled its bound has the record, is marked, or reaches it
  have sampled : ∀ {stop : Nat} {Q : Prop}, (¬ stop ≤ (wal.record w).start → Q) →
      (d.outdate = false → ¬ stop ≤ (wal.record w).start) → d.outdate = true ∨ Q := by
    intro stop Q hQ hnot
    cases hout : d.outdate with
    | true => exact .inl rfl
    | false => exact .inr (hQ (hnot hout))
  cases hdw : d.work <;> rw [hdw] at hwork hreplaying hread <;>
    simp only [Desc.Misses, hdw, not_and] at hmiss
  case none =>
    intro hvalid
    simp only [Desc.WorkOk, hvalid] at hwork
    exact settled hwork (by simp [hread, hvalid]) hreplaying
  case content => exact settled hwork (by simp [hread, Work.begun]) hreplaying
  case startup => exact settled hwork (by simp [hread, Work.begun]) hreplaying
  case finished => exact settled hwork (by simp [hread, Work.begun]) hreplaying
  case lockedEnd start stop =>
    rintro i rfl
    exact .inr (sampled Nat.lt_of_not_le hmiss)
  case sampled start stop =>
    rintro i rfl
    exact .inr (sampled Nat.lt_of_not_le hmiss)
  case applied start =>
    rintro i rfl
    rcases sampled (fun hlt => hwork.1 i hw (Nat.lt_of_not_le hlt)) hmiss with hout | hmem
    · exact .inr hout
    · exact .inl hmem
  all_goals trivial

/-- The worker applies its record to a page that nobody replays. -/
theorem apply {p : Nat} {d : Desc}
    (hp : wal.pageAt s.workerRecord s.workerBlock = some p) (hd : s.pages p = some d)
    (hread : d.readEnd = true) (hwork : d.work = .none ∨ d.work = .finished)
    (hlt : s.workerRecord < s.shared.replayed) : BgInv wal (s.setPage p
      (if d.lsn ≤ (wal.record s.workerRecord).start then d.applyRecord wal s.workerRecord
        else d)).nextBlock := by
  have hok := h.inv.pages p d hd
  have hbg := h.pages p d hd
  have ht : wal.Touches s.workerRecord p := Wal.touches_of_pageAt hp
  have hne : d.work ≠ .startup := by rcases hwork with hwork | hwork <;> simp [hwork]
  have hvalid : d.work = .none → d.valid = true := by
    intro hnone
    simpa [hread, hnone, Work.begun] using hbg.readEnd.symm
  have hsettled : d.Settled wal s.shared p := by
    have hwok := hok.work
    rcases hwork with hnone | hfin
    · rw [hnone] at hwok
      simpa [Desc.WorkOk, hvalid hnone] using hwok
    · rwa [hfin] at hwok
  have hprocessed : ∀ i, s.Processed wal p i → i ∈ d.applied := by
    have hbwork := hbg.work
    rcases hwork with hnone | hfin
    · rw [hnone] at hbwork
      exact hbwork (hvalid hnone)
    · rwa [hfin] at hbwork
  -- whichever way it goes, the page has the record now
  obtain ⟨lsn, applied, heq, hmem, hsub, hclosed⟩ : ∃ lsn applied,
      (if d.lsn ≤ (wal.record s.workerRecord).start then d.applyRecord wal s.workerRecord else d)
        = { d with lsn, applied } ∧ s.workerRecord ∈ applied ∧ d.applied ⊆ applied ∧
      Desc.Complete wal { d with lsn, applied } p lsn := by
    split
    · refine ⟨_, _, rfl, mem_cons_self, subset_cons_self _ _, ?_⟩
      intro i hi hlt
      rcases lt_or_eq_of_le (Wal.start_lt_stop_iff.mp hlt) with hlt | rfl
      · exact mem_cons_of_mem _ (hprocessed i ⟨hi, .inl hlt⟩)
      · exact mem_cons_self
    · next hgt =>
      exact ⟨d.lsn, d.applied, rfl, hok.closed _ ht (Nat.lt_of_not_le hgt), List.Subset.refl _,
        hok.closed⟩
  rw [heq]
  have hsettled' : Desc.Settled wal s.shared p { d with lsn, applied } :=
    ⟨hsettled.1.mono (fun _ => id) hsub fun _ _ => id,
      hsettled.2.mono (fun _ => id) hsub fun _ _ => id⟩
  have hwork' : Desc.WorkOk wal s.shared p { d with lsn, applied } d.work := by
    rcases hwork with hnone | hfin
    · rw [hnone]
      exact (if_pos (hvalid hnone)).mpr hsettled'
    · rw [hfin]
      exact hsettled'
  have hbwork' : ∀ P : Nat → Prop, (∀ i, P i → i ∈ applied) →
      BgWork wal P { d with lsn, applied } d.work := by
    intro P hP
    rcases hwork with hnone | hfin
    · rw [hnone]
      exact fun _ => hP
    · rwa [hfin]
  have hset : BgInv wal (s.setPage p { d with lsn, applied }) := by
    apply h.setPage
    · exact h.inv.setPage_of_ne hd hne
        { hok with closed := hclosed, work := hwork' }
    · exact ⟨hbwork' _ fun i hi => hsub (hprocessed i hi), hbg.readEnd⟩
    · intro e he
      obtain rfl : d = e := some.inj (hd.symm.trans he)
      exact ⟨id, id⟩
  apply hset.nextBlock hp hlt
  intro e he
  obtain rfl : { d with lsn, applied } = e := by simpa [State.setPage] using he
  exact hbwork' _ fun i hi => hi ▸ hmem

/-- The worker has handled every block of its record. -/
theorem nextRecord (hp : wal.pageAt s.workerRecord s.workerBlock = none) {bgReplayed : Nat}
    (hbg : bgReplayed ≤ max s.shared.bgReplayed (wal.record s.workerRecord).start) :
    BgInv wal { s with
      shared := { s.shared with bgReplayed }
      workerRecord := s.workerRecord + 1, workerBlock := 0, worker := .next } := by
  have hprocessed : ∀ {p i : Nat}, wal.Touches i p → i < s.workerRecord + 1 → s.Processed wal p i := by
    intro p i ht hi
    rcases Nat.lt_succ_iff_lt_or_eq.mp hi with hi | rfl
    · exact ⟨ht, .inl hi⟩
    · refine ⟨ht, .inr ⟨rfl, ?_⟩⟩
      rw [take_of_length_le (by simpa [Wal.pageAt, Record.pages] using hp)]
      exact ht
  have hproc : ∀ p i, State.Processed wal { s with
      shared := { s.shared with bgReplayed }
      workerRecord := s.workerRecord + 1, workerBlock := 0, worker := .next } p i →
        s.Processed wal p i := by
    rintro p i ⟨ht, hi | ⟨_, hmem⟩⟩
    · exact hprocessed ht hi
    · simp at hmem
  have grows : ∀ p, Grows wal s.shared { s.shared with bgReplayed } p :=
    fun p => ⟨fun _ => id, le_rfl, fun _ => id, fun _ _ => .inl, fun _ => id⟩
  have hsh := h.inv.shared
  refine ⟨⟨{ hsh with }, ?_,
    h.inv.cleanup⟩, ?_, ?_, ?_, fun _ _ => trivial, fun hne => absurd rfl hne⟩
  · intro p d hd
    exact (grows p).pageOk (h.inv.pages p d hd) (h.inv.pages p d hd).refs
  · intro p d hd
    exact (h.pages p d hd).mono (hproc p)
  · intro p i hi
    exact h.progress p i (hproc p i hi)
  · intro i hi
    have hi : (wal.record i).start < s.shared.bgReplayed ∨
        (wal.record i).start < (wal.record s.workerRecord).start := by
      have hlt := hi.trans_le hbg
      omega
    rcases hi with hi | hi
    · exact (h.bg i hi).trans (Nat.lt_succ_self _)
    · exact (Wal.start_lt_start_iff.mp hi).trans (Nat.lt_succ_self _)

/-- The worker handles the page of its block. -/
theorem workerPage {p : Nat} (hp : wal.pageAt s.workerRecord s.workerBlock = some p)
    (hlt : s.workerRecord < s.shared.replayed)
    (hmiss : s.worker = .pinned false ∨ s.worker = .check →
      ∀ d, s.pages p = some d → ¬ d.Misses wal s.workerRecord)
    (hs : s.workerPage wal p = some t) : BgInv wal t := by
  have ht := Wal.touches_of_pageAt hp
  have hworker := h.worker p hp
  have same : ∀ {d e : Desc}, s.pages p = some d → s.pages p = some e → e = d :=
    fun hd he => some.inj (he.symm.trans hd)
  have only : ∀ q, wal.pageAt s.workerRecord s.workerBlock = some q → q = p :=
    fun q hq => some.inj (hq.symm.trans hp)
  cases hstage : s.worker with
  | next =>
    simp only [State.workerPage, hstage] at hs
    split at hs <;> cases hs
    · next hnone =>
      exact h.nextBlock hp hlt fun d hd => absurd (hnone.symm.trans hd) (by simp)
    · next d hd =>
      apply h.setWorker fun _ => hlt
      intro q hq
      rw [only q hq]
      exact ⟨d, hd, id⟩
  | pinned valid =>
    rw [hstage] at hworker
    obtain ⟨d, hd, hvalid⟩ := hworker
    simp only [State.workerPage, hstage, hd, map_some, some.injEq] at hs
    subst hs
    split
    · next hcond =>
      apply h.setWorker fun _ => hlt
      intro q hq
      rw [only q hq]
      refine ⟨d, hd, ?_⟩
      rcases hcond with hv | hcond
      · simp [(h.pages p d hd).readEnd, hvalid hv]
      · exact hcond.1
    · next hcond =>
      apply h.nextBlock hp hlt
      intro e he
      obtain rfl := same hd he
      have hfalse : valid = false := by
        cases valid with
        | false => rfl
        | true => exact absurd (.inl rfl) hcond
      apply h.skip hd ht hlt (hmiss (.inl (hstage.trans (by rw [hfalse]))) _ hd)
      intro hread hreplaying
      left
      cases hout : e.outdate with
      | false => rfl
      | true => exact absurd (.inr ⟨hread, hout, hreplaying⟩) hcond
  | check =>
    rw [hstage] at hworker
    obtain ⟨d, hd, hread⟩ := hworker
    simp only [State.workerPage, hstage, hd, map_some, some.injEq] at hs
    subst hs
    split
    · next hcond =>
      apply h.nextBlock hp hlt
      intro e he
      obtain rfl := same hd he
      apply h.skip hd ht hlt (hmiss (.inr hstage) _ hd)
      intro _ hreplaying
      rcases hcond with hrep | hlsn
      · exact absurd (hrep.symm.trans hreplaying) (by decide)
      · exact .inr ((h.inv.pages p e hd).closed _ ht hlsn)
    · apply h.setWorker fun _ => hlt
      intro q hq
      rw [only q hq]
      exact ⟨d, hd, hread⟩
  | need =>
    rw [hstage] at hworker
    obtain ⟨d, hd, hread⟩ := hworker
    simp only [State.workerPage, hstage, hd, bind_some] at hs
    split at hs <;> cases hs
    next hwork => exact h.apply hp hd hread hwork hlt

theorem workerStep (hok : SkipOk wal s .worker) (hs : s.workerStep wal = some t) : BgInv wal t := by
  by_cases hle : (wal.record s.workerRecord).start ≤ s.shared.lastReplayedRead
  · simp only [State.workerStep, if_pos hle] at hs
    split at hs
    · next p hp =>
      obtain ⟨hlt, hmiss⟩ := hok p hp
      exact h.workerPage hp ((h.inv.shared.lastReplayed _).mp hlt) hmiss hs
    · next hp =>
      cases hs
      apply h.nextRecord hp
      split
      · exact le_max_left _ _
      · exact le_rfl
  · simp [State.workerStep, hle] at hs

/-- What the worker is done with is in a page that a backend has locked. -/
theorem replayOk (p : Nat) : ReplayOk wal s (.next p) := by
  intro d hd hcontent _ i _ ht hlt
  have hwork := (h.pages p d hd).work
  rw [hcontent] at hwork
  exact hwork i ⟨ht, .inl (h.bg i hlt)⟩

/-- Every step keeps the invariant. -/
theorem keep {op : Op} (hok : SkipOk wal s op) (hs : s.step wal op = some t) : BgInv wal t := by
  -- the page keeps what the worker has seen of it
  have page : ∀ {p : Nat} {d d' : Desc}, s.pages p = some d → Inv wal (s.setPage p d') →
      BgPage wal (s.Processed wal p) d' → d.Keeps d' → BgInv wal (s.setPage p d') := by
    intro p d d' hd hinv hbg hkeeps
    apply h.setPage hinv hbg
    intro e he
    obtain rfl : d = e := some.inj (hd.symm.trans he)
    exact hkeeps
  cases op with
  | startup => exact h.startup hs
  | insert p =>
    have hinv := h.inv.keep (show ReplayOk wal s (.insert p) from trivial) hs
    simp only [State.step] at hs
    split at hs <;> cases hs
    next hnone => exact h.setPage hinv .init fun e he => absurd (hnone.symm.trans he) (by simp)
  | startRead p =>
    have hinv := h.inv.keep (show ReplayOk wal s (.startRead p) from trivial) hs
    obtain ⟨d, hd, hs⟩ := bind_eq_some_iff.mp hs
    split at hs <;> cases hs
    next hcond =>
      have hread := (h.pages p d hd).readEnd
      rw [hcond.2] at hread
      exact page hd hinv ⟨trivial, hread⟩ ⟨id, id⟩
  | read p start m =>
    have hinv := h.inv.keep (show ReplayOk wal s (.read p start m) from trivial) hs
    obtain ⟨d, hd, hs⟩ := bind_eq_some_iff.mp hs
    split at hs <;> cases hs
    next hcond =>
      have hread := (h.pages p d hd).readEnd
      rw [hcond.1] at hread
      obtain ⟨lsn, applied, heq, _⟩ := read_spec wal d p m
      rw [heq] at hinv ⊢
      exact page hd hinv ⟨trivial, hread⟩ ⟨id, id⟩
  | lock p =>
    have hinv := h.inv.keep (show ReplayOk wal s (.lock p) from trivial) hs
    obtain ⟨d, hd, hs⟩ := bind_eq_some_iff.mp hs
    split at hs <;> cases hs
    next hcond =>
      have hbg := h.pages p d hd
      have hwork := hbg.work
      have hread := hbg.readEnd
      rw [hcond.2] at hwork hread
      refine page hd hinv ⟨hwork hcond.1, ?_⟩ ⟨id, id⟩
      simpa [hcond.1, Work.begun] using hread
  | next p =>
    have hinv := h.inv.keep (h.replayOk p) hs
    obtain ⟨d, hd, hs⟩ := bind_eq_some_iff.mp hs
    obtain ⟨d', hd', rfl⟩ := map_eq_some_iff.mp hs
    apply page hd hinv
    · exact (h.pages p d hd).next (h.inv.pages p d hd) h.inv.shared
        (fun i hi => ⟨hi.1, h.progress p i hi⟩) hd'
    · exact Desc.next_keeps hd'
  | evict p =>
    have hinv := h.inv.keep (show ReplayOk wal s (.evict p) from trivial) hs
    obtain ⟨d, hd, hs⟩ := bind_eq_some_iff.mp hs
    split at hs <;> cases hs
    next hcond =>
      apply h.removePage hinv
      have hpins := hcond.2.2
      simp only [State.workerPins, Bool.and_eq_false_iff, bne_eq_false_iff_eq,
        beq_eq_false_iff_ne] at hpins
      exact hpins
  | worker => exact h.workerStep hok hs
  | workerEvict =>
    obtain ⟨p, hp, hs⟩ := bind_eq_some_iff.mp hs
    obtain ⟨d, hd, hs⟩ := bind_eq_some_iff.mp hs
    split at hs <;> cases hs
    next hcond _ =>
      -- the worker drops its pin first
      have hidle : BgInv wal { s with worker := .next } :=
        h.setWorker (fun hne => absurd rfl hne) fun _ _ => trivial
      have hgone := hidle.removePage (hidle.inv.removePage hd (by simp [hcond.2.1]))
        (.inl rfl)
      exact hgone.nextBlock hp (h.turn (by simp [hcond.1])) fun e he => by simp at he

end

end BgInv

/-- A valid page that nobody replays has every record before `bg_replayed_lsn`. -/
def Replayed (wal : Wal) (s : State) : Prop :=
  ∀ p d, s.pages p = some d → d.valid = true → d.replaying = false →
    ∀ i, wal.Touches i p → (wal.record i).start < s.shared.bgReplayed → i ∈ d.applied

theorem BgInv.replayed (h : BgInv wal s) : Replayed wal s := by
  intro p d hd hvalid hreplaying i ht hlt
  have hok := h.inv.pages p d hd
  have hreplays := hok.replaying.symm.trans hreplaying
  have hprocessed : s.Processed wal p i := ⟨ht, .inl (h.bg i hlt)⟩
  have hwork := (h.pages p d hd).work
  cases hw : d.work <;> rw [hw] at hreplays hwork
  case none => exact hwork hvalid i hprocessed
  case content => exact hwork i hprocessed
  case startup => exact hwork i hprocessed
  case finished => exact hwork i hprocessed
  case reading => exact absurd (hvalid.symm.trans (hok.fresh (by rw [hw]; rfl))) (by decide)
  case read => exact absurd (hvalid.symm.trans (hok.fresh (by rw [hw]; rfl))) (by decide)
  case probed => exact absurd (hvalid.symm.trans (hok.fresh (by rw [hw]; rfl))) (by decide)
  all_goals cases hreplays

/-- If `lastReplayedEndRecPtr` covers the records that the worker handles, and it looks at no page
whose replay misses its record, then it passes no record that a buffered page misses, and a replay
from `bg_replayed_lsn` skips none. -/
theorem background_replayed {lastReplayed bgReplayed : Nat}
    (hle : lastReplayed ≤ (wal.record 0).start) (hbg : bgReplayed ≤ (wal.record 0).start)
    (run : Reaches (State.step wal) (SkipOk wal) (.init lastReplayed bgReplayed) s) :
    Replayed wal s ∧ ∀ p, ReplayOk wal s (.next p) := by
  have h := run.invariant (BgInv wal) (.init hle hbg) fun _ _ _ h hok hs => h.keep hok hs
  exact ⟨h.replayed, h.replayOk⟩

instance (wal : Wal) (s : State) : (op : Op) → Decidable (SkipOk wal s op)
  | .worker => inferInstanceAs (Decidable (∀ p ∈ wal.pageAt s.workerRecord s.workerBlock,
      (wal.record s.workerRecord).start < s.shared.lastReplayed ∧
        (s.worker = .pinned false ∨ s.worker = .check → ∀ d ∈ s.pages p,
          ¬ d.Misses wal s.workerRecord)))
  | .startup | .insert _ | .startRead _ | .read _ _ _ | .lock _ | .next _ | .evict _
  | .workerEvict => .isTrue trivial

/-- Page 0 is read in before its record is parsed. -/
def readIn : List Op :=
  [.insert 0, .startRead 0, .read 0 0 0] ++ replicate 7 (.next 0)

/-- The startup process parses two records, and the worker applies the first one to page 0. -/
def applyRun : List Op :=
  readIn ++ replicate 18 .startup ++ replicate 7 .worker

/-- The worker replays the first record, and `bg_replayed_lsn` goes past it. -/
theorem background_replayed_apply : ∃ s d,
    Reaches (State.step tenByteWal) (SkipOk tenByteWal) (.init 10 10) s ∧
      (Replayed tenByteWal s ∧ ∀ p, ReplayOk tenByteWal s (.next p)) ∧
      s.pages 0 = some d ∧ d.valid = true ∧ d.replaying = false ∧ d.applied = [0] ∧
      (tenByteWal.record 0).start < s.shared.bgReplayed := by
  obtain ⟨s, run, d, hd, hvalid, hreplaying, happlied, hbg⟩ := exists_reaches_tested
    (State.step tenByteWal) (SkipOk tenByteWal) (.init 10 10) applyRun
    (fun s => ∃ d ∈ s.pages 0, d.valid = true ∧ d.replaying = false ∧ d.applied = [0] ∧
      (tenByteWal.record 0).start < s.shared.bgReplayed) (by decide +kernel)
  exact ⟨s, d, run, background_replayed (by decide) (by decide) run, hd, hvalid, hreplaying,
    happlied, hbg⟩

/-- A backend replays page 0 and samples its upper bound after record 0 was marked and before it is
published; the worker finds the page replaying, and passes the record. The watermark only marks the
page again. -/
def skipRun : List Op :=
  readIn ++ replicate 6 .startup ++ [.lock 0] ++ replicate 3 (.next 0) ++
    replicate 12 .startup ++ replicate 6 .worker ++ replicate 3 (.next 0)

/-- The worker passes record 0 when only `lastReplayedReadRecPtr` has been advanced. The replay of
the page, which is under way then, samples `lastReplayedEndRecPtr` after that. -/
def betweenRun : List Op :=
  readIn ++ replicate 8 .startup ++ [.lock 0, .next 0] ++ replicate 4 .worker ++
    replicate 5 (.next 0) ++ replicate 9 .startup ++ replicate 2 .worker

/-- A run that ends with page 0 idle and without its record, which `bg_replayed_lsn` has passed. -/
theorem not_replayed_of_run (ops : List Op)
    (hview : ((exec (State.step tenByteWal) (.init 10 10) ops).any fun s => ∃ d ∈ s.pages 0,
      d.valid = true ∧ d.replaying = false ∧ d.applied = [] ∧ s.shared.bgReplayed = 20) = true) :
    ∃ s, Reaches (State.step tenByteWal) (fun _ _ => True) (.init 10 10) s ∧
      ¬ Replayed tenByteWal s := by
  obtain ⟨s, run, d, hd, hvalid, hreplaying, happlied, hbg⟩ := exists_reaches_any _ _ _ _ hview
  refine ⟨s, run, fun hall => ?_⟩
  have hmem := hall 0 d hd hvalid hreplaying 0 (by decide) (hbg ▸ by decide)
  rw [happlied] at hmem
  cases hmem

/-- The worker can pass a record that a buffered page misses. -/
theorem background_not_replayed : ¬ ∀ (wal : Wal) (lastReplayed bgReplayed : Nat) (s : State),
    lastReplayed ≤ (wal.record 0).start → bgReplayed ≤ (wal.record 0).start →
      Reaches (State.step wal) (fun _ _ => True) (.init lastReplayed bgReplayed) s →
        Replayed wal s := by
  intro hall
  have hskip : ∃ s, Reaches (State.step tenByteWal) (fun _ _ => True) (.init 10 10) s ∧
      ¬ Replayed tenByteWal s := not_replayed_of_run skipRun (by decide +kernel)
  obtain ⟨s, run, hnot⟩ := hskip
  exact hnot (hall tenByteWal 10 10 s (by decide) (by decide) run)

/-- The record is lost, too, if only `lastReplayedReadRecPtr` covers it when the worker gets to
it. -/
theorem background_not_replayed_between :
    ∃ s, Reaches (State.step tenByteWal) (fun _ _ => True) (.init 10 10) s ∧
      ¬ Replayed tenByteWal s := not_replayed_of_run betweenRun (by decide +kernel)

end Polar.Replay
