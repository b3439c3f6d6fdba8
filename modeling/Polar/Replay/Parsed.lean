import Polar.Replay.Startup

/-!
# A page never loses a record that was parsed

In every reached state a valid page that nobody replays has every record up to
`lastReplayedEndRecPtr`, or is marked as outdated.
-/

namespace Polar.Replay

open Shared (parsed replayed)

open Option List

open Option (map_eq_some_iff bind_eq_some_iff)

variable {wal : Wal} {s t : State}

/-- What the startup process does with a buffered page. -/
def Moves (r : Record) (d d' : Desc) : Prop :=
  d' = d ∨ d' = d.mark r ∨ (d.work = .none ∧ d.valid = true ∧ d' = { d with work := .startup }) ∨
    (d.work = .startup ∧ d' = Desc.mark { d with work := .none } r)

/-- What a step of the startup process does to the pages, and what it leaves to the worker. -/
structure StartupMoves (wal : Wal) (s t : State) : Prop where
  workerRecord : t.workerRecord = s.workerRecord
  workerBlock : t.workerBlock = s.workerBlock
  worker : t.worker = s.worker
  bgReplayed : t.shared.bgReplayed = s.shared.bgReplayed
  replayed : s.shared.replayed ≤ t.shared.replayed
  absent : ∀ q, s.pages q = none → t.pages q = none
  present : ∀ q d, s.pages q = some d →
    ∃ d', t.pages q = some d' ∧ Moves (wal.record s.shared.current) d d'

namespace StartupMoves

theorem setShared {sh : Shared} (hbg : sh.bgReplayed = s.shared.bgReplayed)
    (hrep : s.shared.replayed ≤ sh.replayed) : StartupMoves wal s (s.setShared sh) :=
  ⟨rfl, rfl, rfl, hbg, hrep, fun _ => id, fun _ d hd => ⟨d, hd, .inl rfl⟩⟩

theorem setPage {sh : Shared} {p : Nat} {d d' : Desc} (hbg : sh.bgReplayed = s.shared.bgReplayed)
    (hrep : s.shared.replayed ≤ sh.replayed) (hd : s.pages p = some d)
    (hmoves : Moves (wal.record s.shared.current) d d') :
    StartupMoves wal s ((s.setShared sh).setPage p d') := by
  refine ⟨rfl, rfl, rfl, hbg, hrep, ?_, ?_⟩
  · intro q hq
    have hqp : q ≠ p := by
      rintro rfl
      exact absurd (hq.symm.trans hd) (by simp)
    simpa [State.setPage, State.setShared, hqp] using hq
  · intro q e he
    by_cases hqp : q = p
    · subst hqp
      obtain rfl : d = e := some.inj (hd.symm.trans he)
      exact ⟨d', by simp [State.setPage], hmoves⟩
    · exact ⟨e, by simpa [State.setPage, State.setShared, hqp] using he, .inl rfl⟩

end StartupMoves

variable (wal) in
/-- What every run keeps of the pages. -/
structure Inv (s : State) : Prop where
  shared : SharedOk wal s.shared
  pages : ∀ p d, s.pages p = some d → PageOk wal s.shared p d
  cleanup : ∀ k p, s.shared.stage = .cleanupLocked k → wal.pageAt s.shared.current k = some p →
    ∃ d, s.pages p = some d ∧ d.work = .startup

namespace Inv

theorem init {lastReplayed : Nat} (hle : lastReplayed ≤ (wal.record 0).start) (bgReplayed : Nat) :
    Inv wal (.init lastReplayed bgReplayed) where
  shared := by
    refine ⟨?_, by simp [State.init], by simp [State.init], ?_, by simp [State.init, Stage.parses],
      by simp [State.init, Stage.parses], by simp [State.init, Stage.lockedAt], by simp [State.init],
      by simp [State.init], by simp [State.init], by simp [State.init, Stage.parses]⟩
    · intro i
      refine iff_of_false (Nat.not_lt.mpr (hle.trans ?_)) (Nat.not_lt_zero i)
      rcases Nat.eq_zero_or_pos i with rfl | hpos
      · exact le_rfl
      · exact (Wal.start_lt_start_iff.mpr hpos).le
    · rintro i q _ (hlt | ⟨_, hsaved⟩)
      · exact absurd hlt (Nat.not_lt_zero i)
      · cases hsaved
  pages p d hd := by cases hd
  cleanup k p hk := by cases hk

theorem setShared (h : Inv wal s) {sh : Shared} (hsh : SharedOk wal sh)
    (g : ∀ p, Grows wal s.shared sh p)
    (hrefs : ∀ p d, s.pages p = some d → d.work.refs = true → p ∈ s.shared.table → p ∈ sh.table)
    (hstage : ∀ k, sh.stage ≠ .cleanupLocked k) : Inv wal (s.setShared sh) where
  shared := hsh
  pages p d hd :=
    (g p).pageOk (h.pages p d hd) fun hr => hrefs p d hd hr ((h.pages p d hd).refs hr)
  cleanup k _ hk := absurd hk (hstage k)

variable {p : Nat} {d : Desc}

theorem setPage (h : Inv wal s) (hd : PageOk wal s.shared p d)
    (hwork : ∀ k, s.shared.stage = .cleanupLocked k → wal.pageAt s.shared.current k = some p →
      d.work = .startup) : Inv wal (s.setPage p d) where
  shared := h.shared
  pages q e he := by
    by_cases hq : q = p
    · subst hq
      obtain rfl : d = e := by simpa [State.setPage] using he
      exact hd
    · exact h.pages q e (by simpa [State.setPage, hq] using he)
  cleanup k q hk hq := by
    by_cases hqp : q = p
    · subst hqp
      exact ⟨d, by simp [State.setPage], hwork k hk hq⟩
    · obtain ⟨e, he, hework⟩ := h.cleanup k q hk hq
      exact ⟨e, by simpa [State.setPage, hqp] using he, hework⟩

/-- The cleanup lock of the startup process is not the work of anyone else. -/
theorem not_cleanup (h : Inv wal s) (hp : ∀ d, s.pages p = some d → d.work ≠ .startup)
    {k : Nat} (hk : s.shared.stage = .cleanupLocked k) :
    wal.pageAt s.shared.current k ≠ some p := by
  intro hq
  obtain ⟨d, hd, hwork⟩ := h.cleanup k p hk hq
  exact hp d hd hwork

/-- A step on a page that the startup process has not locked for cleanup. -/
theorem setPage_of_ne (h : Inv wal s) {d d' : Desc} (hp : s.pages p = some d)
    (hne : d.work ≠ .startup) (hd : PageOk wal s.shared p d') : Inv wal (s.setPage p d') :=
  h.setPage hd fun k hk hq => absurd hq (h.not_cleanup (fun e he => by
    obtain rfl : d = e := some.inj (hp.symm.trans he)
    exact hne) hk)

theorem removePage (h : Inv wal s) (hp : s.pages p = some d) (hne : d.work ≠ .startup) :
    Inv wal { s with pages := Function.update s.pages p none } where
  shared := h.shared
  pages q e he := by
    by_cases hq : q = p
    · subst hq
      simp at he
    · exact h.pages q e (by simpa [hq] using he)
  cleanup k q hk hq := by
    obtain ⟨e, he, hework⟩ := h.cleanup k q hk hq
    have hqp : q ≠ p := by
      rintro rfl
      exact hne (some.inj (hp.symm.trans he) ▸ hework)
    exact ⟨e, by simpa [hqp] using he, hework⟩

section Startup

variable {k p : Nat}

/-- A stage in which the page lock is held, or was. -/
theorem lockedAt_spec (wal : Wal) {sh : Shared} (hlocked : sh.stage.lockedAt = some k) :
    sh.parsed wal = k ∧ sh.replayed = sh.current ∧ sh.stage.parses = true := by
  cases hs : sh.stage <;> simp only [hs, Stage.lockedAt, some.injEq, reduceCtorEq] at hlocked
  all_goals
    subst hlocked
    simp [replayed, parsed, hs, Stage.parses]

theorem markBlock (h : Inv wal s) {d : Desc} (hlocked : s.shared.stage.lockedAt = some k)
    (hp : wal.pageAt s.shared.current k = some p) (hd : PageOk wal s.shared p d) :
    Inv wal (s.markBlock wal k p d) := by
  obtain ⟨hparsed, hrep, _⟩ := lockedAt_spec wal hlocked
  constructor
  · exact h.shared.marked hlocked hp
  · intro q e he
    by_cases hq : q = p
    · subst hq
      obtain rfl : d.mark (wal.record s.shared.current) = e := by
        simpa [State.markBlock, State.setPage, State.setShared] using he
      exact hd.mark hparsed hrep hp
    · have he' : s.pages q = some e := by
        simpa [State.markBlock, State.setPage, State.setShared, hq] using he
      apply (Grows.marked hparsed hrep hp hq).pageOk (h.pages q e he')
      intro hr
      rw [Shared.marked_table]
      exact (h.pages q e he').refs hr
  · rintro j q ⟨⟩

/-- The page is not buffered: there is nothing to mark. -/
theorem markAbsent (h : Inv wal s) (hlocked : s.shared.stage.lockedAt = some k)
    (hp : wal.pageAt s.shared.current k = some p) (hnone : s.pages p = none) :
    Inv wal (s.setShared (s.shared.marked wal k p)) := by
  obtain ⟨hparsed, hrep, _⟩ := lockedAt_spec wal hlocked
  constructor
  · exact h.shared.marked hlocked hp
  · intro q e he
    have hq : q ≠ p := by
      rintro rfl
      exact absurd (hnone.symm.trans he) (by simp)
    apply (Grows.marked hparsed hrep hp hq).pageOk (h.pages q e he)
    intro hr
    rw [Shared.marked_table]
    exact (h.pages q e he).refs hr
  · rintro j q ⟨⟩

theorem setStage (h : Inv wal s) {stage : Stage} {table : List Nat} {lastReplayedRead : Nat}
    (hparses : s.shared.stage.parses = true) (hparses' : stage.parses = true)
    (hparsed : ∀ q ∈ (wal.record s.shared.current).pages.take
        (parsed wal { s.shared with stage }),
      q ∈ (wal.record s.shared.current).pages.take (s.shared.parsed wal))
    (htable : ∀ q ∈ s.shared.table, q ∈ table)
    (hmulti : ∀ q ∈ table, q ∈ s.shared.table ∨ (wal.record s.shared.current).multi = true)
    (hlocked : (wal.record s.shared.current).multi = true → ∀ k q, stage.lockedAt = some k →
      wal.pageAt s.shared.current k = some q → q ∈ table)
    (hstage : ∀ k, stage ≠ .cleanupLocked k) :
    Inv wal (s.setShared { s.shared with stage, table, lastReplayedRead }) ∧
      StartupMoves wal s (s.setShared { s.shared with stage, table, lastReplayedRead }) := by
  have hrep : replayed { s.shared with stage, table, lastReplayedRead } = s.shared.current :=
    Shared.replayed_of_parses hparses'
  exact ⟨h.setShared (h.shared.setStage hparses hparses' hparsed htable hmulti hlocked)
    (Grows.setStage hparses hparses' hparsed) (fun q _ _ _ => htable q) hstage,
    .setShared rfl ((Shared.replayed_of_parses hparses).trans hrep.symm).le⟩

/-- The stages in which the page lock is held follow one another. -/
theorem setLocked (h : Inv wal s) {stage : Stage} (hlocked : s.shared.stage.lockedAt = some k)
    (hlocked' : stage.lockedAt = some k) (hstage : ∀ k, stage ≠ .cleanupLocked k) :
    Inv wal (s.setShared { s.shared with stage }) ∧
      StartupMoves wal s (s.setShared { s.shared with stage }) := by
  obtain ⟨hparsed, _, hparses⟩ := lockedAt_spec wal hlocked
  have hspec : ({ s.shared with stage } : Shared).parsed wal = k ∧ _ ∧ stage.parses = true :=
    lockedAt_spec wal hlocked'
  obtain ⟨hparsed', _, hparses'⟩ := hspec
  refine h.setStage hparses hparses' (by rw [hparsed, hparsed']; exact fun _ => id) (fun _ => id)
    (fun _ => .inl) (fun hmulti j q hj hq => ?_) hstage
  obtain rfl : k = j := some.inj (hlocked'.symm.trans hj)
  exact h.shared.lockedAt hmulti k q hlocked hq

section Block

variable (h : Inv wal s) (hp : wal.pageAt s.shared.current k = some p) {cleanup : Bool}
include h hp

theorem blockStep_block (hstage : s.shared.stage = .block k)
    (hs : s.blockStep wal k p cleanup (.block k) = some t) : Inv wal t ∧ StartupMoves wal s t := by
  have hparses : s.shared.stage.parses = true := by rw [hstage]; rfl
  have hparsed : ∀ q ∈ (wal.record s.shared.current).pages.take
      (parsed wal { s.shared with stage := .locked k }),
      q ∈ (wal.record s.shared.current).pages.take (s.shared.parsed wal) := by
    simp [parsed, hstage]
  simp only [State.blockStep] at hs
  split at hs
  · next hmulti =>
    split at hs <;> cases hs
    refine h.setStage hparses rfl hparsed (fun q hq => mem_cons_of_mem _ hq)
      (fun _ _ => .inr hmulti) (fun _ j q hj hq => ?_) (by simp)
    cases hj
    rw [some.inj (hq.symm.trans hp)]
    exact mem_cons_self
  · next hmulti =>
    cases hs
    exact h.setStage hparses rfl hparsed (fun _ => id) (fun _ => .inl) (fun hm => absurd hm hmulti)
      (by simp)

/-- The page is marked, or found not to be buffered. -/
theorem marks (hlocked : s.shared.stage.lockedAt = some k) :
    (s.pages p = none → Inv wal (s.setShared (s.shared.marked wal k p)) ∧
      StartupMoves wal s (s.setShared (s.shared.marked wal k p))) ∧
    ∀ d d', s.pages p = some d → PageOk wal s.shared p d' →
      Moves (wal.record s.shared.current) d (d'.mark (wal.record s.shared.current)) →
        Inv wal (s.markBlock wal k p d') ∧ StartupMoves wal s (s.markBlock wal k p d') := by
  have hrep : s.shared.replayed ≤ (s.shared.marked wal k p).replayed := by
    rw [(lockedAt_spec wal hlocked).2.1]
    exact Shared.marked_current.ge
  refine ⟨fun hnone => ?_, fun d d' hd hok hmoves => ?_⟩
  · exact ⟨h.markAbsent hlocked hp hnone, .setShared Shared.marked_bgReplayed hrep⟩
  · exact ⟨h.markBlock hlocked hp hok, .setPage Shared.marked_bgReplayed hrep hd hmoves⟩

theorem blockStep_locked (hstage : s.shared.stage = .locked k)
    (hs : s.blockStep wal k p cleanup (.locked k) = some t) : Inv wal t ∧ StartupMoves wal s t := by
  have hlocked : s.shared.stage.lockedAt = some k := by rw [hstage]; rfl
  simp only [State.blockStep] at hs
  split at hs <;> cases hs
  · next hnone => exact (h.marks hp hlocked).1 hnone
  · exact h.setLocked hlocked rfl (by simp)

theorem blockStep_found (hstage : s.shared.stage = .found k)
    (hs : s.blockStep wal k p cleanup (.found k) = some t) : Inv wal t ∧ StartupMoves wal s t := by
  have hlocked : s.shared.stage.lockedAt = some k := by rw [hstage]; rfl
  obtain ⟨d, hd, rfl⟩ := map_eq_some_iff.mp hs
  split
  · exact (h.marks hp hlocked).2 d d hd (h.pages p d hd) (.inr (.inl rfl))
  · exact h.setLocked hlocked rfl (by simp)

/-- The startup process gets the cleanup lock of an idle page. -/
theorem blockStep_cleanup (hstage : s.shared.stage = .cleanup k)
    (hs : s.blockStep wal k p cleanup (.cleanup k) = some t) :
    Inv wal t ∧ StartupMoves wal s t := by
  have hlocked : s.shared.stage.lockedAt = some k := by rw [hstage]; rfl
  obtain ⟨hparsed, hrep, hparses⟩ := lockedAt_spec wal hlocked
  obtain ⟨d, hd, hs⟩ := bind_eq_some_iff.mp hs
  split at hs <;> cases hs
  next hcond =>
  obtain ⟨hvalid, hnone⟩ := hcond
  refine ⟨?_, .setPage rfl hrep.le hd (.inr (.inr (.inl ⟨hnone, hvalid, rfl⟩)))⟩
  have hpassed : ∀ q ∈ (wal.record s.shared.current).pages.take
      (parsed wal { s.shared with stage := .cleanupLocked k }),
      q ∈ (wal.record s.shared.current).pages.take (s.shared.parsed wal) := by
    rw [hparsed]
    exact fun _ => id
  have hpages : ∀ q e, s.pages q = some e →
      PageOk wal { s.shared with stage := .cleanupLocked k } q e := fun q e he =>
    (Grows.setStage hparses rfl hpassed q).pageOk (h.pages q e he) (h.pages q e he).refs
  have hok := hpages p d hd
  have hsettled := hok.work
  simp only [hnone, Desc.WorkOk, hvalid] at hsettled
  have hreplaying := hok.replaying
  rw [hnone] at hreplaying
  constructor
  · refine h.shared.setStage hparses rfl hpassed (fun _ => id) (fun _ => .inl)
      (fun hmulti j q hj hq => ?_)
    cases hj
    exact h.shared.lockedAt hmulti k q hlocked hq
  · intro q e he
    by_cases hq : q = p
    · subst hq
      obtain rfl : { d with work := .startup } = e := by
        simpa [State.setPage, State.setShared] using he
      exact ⟨hok.closed, by simp [Work.refs], hreplaying, by simp [Work.fresh],
        fun _ => hvalid, hsettled⟩
    · exact hpages q e (by simpa [State.setPage, State.setShared, hq] using he)
  · intro j q hj hq
    cases hj
    obtain rfl : q = p := some.inj (hq.symm.trans hp)
    exact ⟨{ d with work := .startup }, by simp [State.setPage], rfl⟩

/-- It marks the page, and releases the lock. -/
theorem blockStep_cleanupLocked (hstage : s.shared.stage = .cleanupLocked k)
    (hs : s.blockStep wal k p cleanup (.cleanupLocked k) = some t) :
    Inv wal t ∧ StartupMoves wal s t := by
  have hlocked : s.shared.stage.lockedAt = some k := by rw [hstage]; rfl
  obtain ⟨d, hd, rfl⟩ := map_eq_some_iff.mp hs
  have hwork : d.work = .startup := by
    obtain ⟨e, he, hwork⟩ := h.cleanup k p hstage hp
    exact some.inj (hd.symm.trans he) ▸ hwork
  have hok := h.pages p d hd
  have hsettled := hok.work
  rw [hwork] at hsettled
  have hvalid : d.valid = true := hok.locks (by rw [hwork]; rfl)
  have hreplaying := hok.replaying
  rw [hwork] at hreplaying
  refine (h.marks hp hlocked).2 d _ hd ?_ (.inr (.inr (.inr ⟨hwork, rfl⟩)))
  refine ⟨hok.closed, by simp [Work.refs], hreplaying, by simp [Work.fresh], by simp [Work.locks], ?_⟩
  simp only [Desc.WorkOk, hvalid]
  exact hsettled

/-- A step at block `k`, by the stage it is in. -/
theorem blockStep {stage : Stage} (hstage : s.shared.stage = stage)
    (hk : stage = .block k ∨ stage.lockedAt = some k ∨ stage = .marked k)
    (hs : s.blockStep wal k p cleanup stage = some t) : Inv wal t ∧ StartupMoves wal s t := by
  rcases hk with rfl | hk | rfl
  · exact h.blockStep_block hp hstage hs
  · cases stage <;> simp only [Stage.lockedAt, some.injEq, reduceCtorEq] at hk <;> subst hk
    case locked => exact h.blockStep_locked hp hstage hs
    case found => exact h.blockStep_found hp hstage hs
    case cleanup => exact h.blockStep_cleanup hp hstage hs
    case cleanupLocked => exact h.blockStep_cleanupLocked hp hstage hs
  · cases hs
    exact h.setStage (by rw [hstage]; rfl) rfl (by simp [parsed, hstage]) (fun _ => id)
      (fun _ => .inl) (by simp [Stage.lockedAt]) (by simp)

end Block

variable (h : Inv wal s)
include h

/-- The record is not parsed yet, and no page of it has been passed. -/
theorem setUnparsed {sh : Shared} (hsh : SharedOk wal sh)
    (hcur : sh.current = s.shared.current) (hrep : sh.replayed = s.shared.replayed)
    (hparsed : s.shared.parsed wal = 0) (hparsed' : sh.parsed wal = 0)
    (hadded : sh.added = s.shared.added) (htable : sh.table = s.shared.table)
    (hlogged : ∀ q i, i ∈ s.shared.logged q → i ∈ sh.logged q)
    (hbg : sh.bgReplayed = s.shared.bgReplayed) (hstage : ∀ k, sh.stage ≠ .cleanupLocked k) :
    Inv wal (s.setShared sh) ∧ StartupMoves wal s (s.setShared sh) :=
  ⟨h.setShared hsh (fun q => .of_unparsed hcur hrep hparsed hparsed' hadded (hlogged q))
    (fun _ _ _ _ hq => htable ▸ hq) hstage, .setShared hbg hrep.ge⟩

theorem startupStep_saving (hstage : s.shared.stage = .saving k)
    (hs : s.startupStep wal = some t) : Inv wal t ∧ StartupMoves wal s t := by
  have hrep : s.shared.replayed = s.shared.current := by simp [replayed, hstage]
  have hparsed : s.shared.parsed wal = 0 := by simp [parsed, hstage]
  simp only [State.startupStep, hstage] at hs
  split at hs
  · next q c hb =>
    cases hs
    refine h.setUnparsed (h.shared.save hstage (by simp [Wal.pageAt, hb])) rfl hrep.symm hparsed rfl
      rfl rfl (fun r i hi => ?_) rfl (by simp)
    by_cases hr : r = q
    · subst hr
      simp [hi]
    · simpa [hr] using hi
  · next hb =>
    split at hs <;> cases hs
    · next hmulti =>
      exact h.setUnparsed
        (h.shared.publish hstage hb (fun hm => absurd (hm.symm.trans hmulti) (by decide)) fun _ => rfl)
        rfl hrep.symm hparsed rfl rfl rfl (fun _ _ => id) rfl (by simp)
    · next hmulti =>
      exact h.setUnparsed (h.shared.publish hstage hb (fun _ => rfl) fun hm => absurd hm hmulti)
        rfl hrep.symm hparsed rfl rfl rfl (fun _ _ => id) rfl (by simp)

/-- The next record, with nothing left of this one. -/
theorem nextRecord (hrep : s.shared.replayed = s.shared.current + 1)
    {inFlight : Option (List Nat × Nat)} {table added : List Nat} (htable : ∀ q, q ∉ table)
    (hadded : ∀ q, q ∉ added)
    (hrefs : ∀ p d, s.pages p = some d → d.work.refs = true → p ∉ s.shared.table) :
    Inv wal (s.setShared (Shared.nextRecord { s.shared with inFlight, table, added })) ∧
      StartupMoves wal s (s.setShared (Shared.nextRecord { s.shared with inFlight, table, added })) :=
  ⟨h.setShared (h.shared.nextRecord hrep htable hadded) (.nextRecord hrep)
    (fun p d hd hr hq => absurd hq (hrefs p d hd hr)) (by simp [Shared.nextRecord]),
    .setShared rfl hrep.le⟩

/-- The startup process goes on. -/
theorem startupStep (hs : s.startupStep wal = some t) :
    Inv wal t ∧ StartupMoves wal s t := by
  have page : ∀ {j : Nat} {b : Nat × Bool}, (wal.record s.shared.current).blocks[j]? = some b →
      wal.pageAt s.shared.current j = some b.1 := by
    intro j b hb
    simp [Wal.pageAt, hb]
  have locked : ∀ {j : Nat}, s.shared.stage.lockedAt = some j ∨ s.shared.stage = .marked j →
      ((wal.record s.shared.current).blocks[j]?.bind fun x =>
        s.blockStep wal j x.1 x.2 s.shared.stage) = some t → Inv wal t ∧ StartupMoves wal s t := by
    intro j hj hs
    obtain ⟨b, hb, hs⟩ := bind_eq_some_iff.mp hs
    exact h.blockStep (page hb) rfl (.inr hj) hs
  cases hstage : s.shared.stage with
  | idle =>
    simp only [State.startupStep, hstage] at hs
    cases hs
    exact h.setUnparsed (h.shared.begin hstage) rfl (by simp [replayed, hstage])
      (by simp [parsed, hstage]) rfl rfl rfl (fun _ _ => id) rfl (by simp)
  | saving j => exact h.startupStep_saving hstage hs
  | block j =>
    simp only [State.startupStep, hstage] at hs
    split at hs
    · next q c hb => exact h.blockStep (page hb) hstage (.inl rfl) hs
    · next hb =>
      cases hs
      refine h.setStage (by rw [hstage]; rfl) rfl (fun q hq => ?_) (fun _ => id) (fun _ => .inl)
        (by simp [Stage.lockedAt]) (by simp)
      simp only [parsed, hstage]
      rw [take_of_length_le (by simpa [Record.pages] using getElem?_eq_none_iff.mp hb)]
      exact mem_of_mem_take hq
  | locked j | found j | cleanup j | cleanupLocked j =>
    exact locked (.inl (by rw [hstage]; rfl)) (by simpa [State.startupStep, hstage] using hs)
  | marked j => exact locked (.inr hstage) (by simpa [State.startupStep, hstage] using hs)
  | published =>
    simp only [State.startupStep, hstage] at hs
    cases hs
    refine ⟨h.setShared (h.shared.advance hstage) (fun q => .advance hstage q _) (fun _ _ _ _ => id)
      (by simp), .setShared rfl ?_⟩
    simp [replayed, hstage]
  | advanced =>
    have hrep : s.shared.replayed = s.shared.current + 1 := by simp [replayed, hstage]
    simp only [State.startupStep, hstage] at hs
    split at hs <;> cases hs
    · exact ⟨h.setShared (h.shared.endMini hstage) (.endMini hstage) (fun _ _ _ _ => id) (by simp),
        .setShared rfl hrep.le⟩
    · next hmulti =>
      -- a record without a mini transaction leaves no pages behind
      have htable : ∀ q, q ∉ s.shared.table := fun q hq => hmulti (h.shared.active q hq).2
      exact h.nextRecord hrep htable (fun q hq => htable q (h.shared.table q hq))
        fun q _ _ _ => htable q
  | ending =>
    have hrep : s.shared.replayed = s.shared.current + 1 := by simp [replayed, hstage]
    simp only [State.startupStep, hstage] at hs
    split at hs <;> cases hs
    next hrefs =>
      refine h.nextRecord hrep (by simp) (by simp) fun q d hd hr hq => ?_
      have hnot := hrefs q hq
      simp only [State.pageRefs, hd] at hnot
      exact absurd (hr.symm.trans hnot) (by decide)

end Startup

theorem read (h : Inv wal s) {p start m : Nat} (hd : s.pages p = some d)
    (hwork : d.work = .reading) (hstart : start ≤ (wal.record m).start) :
    Inv wal (s.setPage p
      { ((range m).filter fun i => p ∈ (wal.record i).pages).foldl
          (Desc.applyRecord wal) { d with lsn := 0, applied := [] } with
        work := .read start }) := by
  have hok := h.pages p d hd
  have hfresh := hok.work
  rw [hwork] at hfresh
  have hreplaying := hok.replaying
  rw [hwork] at hreplaying
  obtain ⟨lsn, applied, heq, hall, hclosed⟩ := read_spec wal d p m
  rw [heq]
  apply h.setPage_of_ne hd (by simp [hwork])
  exact ⟨hclosed, by simp [Work.refs], hreplaying, fun _ => hok.fresh (by rw [hwork]; rfl),
    by simp [Work.locks], hfresh, fun i ht hlt => hall i ht (hlt.trans_le hstart)⟩

theorem take (h : Inv wal s) (hd : s.pages p = some d)
    (hwork : d.work = .none) {work : Work} (hplain : work.refs = false ∧ work.replays = false)
    (hfresh : work.fresh = true → d.valid = false) (hlocks : work.locks = true → d.valid = true)
    (hok : d.WorkOk wal s.shared p .none → d.WorkOk wal s.shared p work) :
    Inv wal (s.setPage p { d with work }) := by
  have hpage := h.pages p d hd
  have hreplaying := hpage.replaying
  rw [hwork] at hreplaying
  apply h.setPage_of_ne hd (by simp [hwork])
  refine ⟨hpage.closed, fun hr => ?_, hreplaying.trans hplain.2.symm, hfresh, hlocks, ?_⟩
  · exact absurd (hr.symm.trans hplain.1) (by decide)
  · have hnone := hok (hwork ▸ hpage.work :)
    cases work <;> exact hnone

end Inv

/-- What is said of the buffers that are locked: nothing before `bg_replayed_lsn` is missing from a
page that is replayed from there. The background worker is left out. -/
def ReplayOk (wal : Wal) (s : State) : Op → Prop
  | .next p => ∀ d ∈ s.pages p, d.work = .content → d.outdate = true →
      ∀ i < s.shared.bgReplayed, wal.Touches i p → (wal.record i).start < s.shared.bgReplayed →
        i ∈ d.applied
  | .worker | .workerEvict => False
  | _ => True

/-- Records before an LSN have smaller numbers. -/
theorem Wal.lt_start (i : Nat) : i < (wal.record i).start := by
  induction i with
  | zero => exact wal.start_pos
  | succ i ih =>
    calc i + 1 ≤ (wal.record i).start := ih
      _ < (wal.record (i + 1)).start := Wal.start_lt_start_iff.mpr (Nat.lt_succ_self i)

theorem Inv.keep (h : Inv wal s) {op : Op} (hok : ReplayOk wal s op)
    (hs : s.step wal op = some t) : Inv wal t := by
  cases op with
  | startup => exact (h.startupStep hs).1
  | insert p =>
    simp only [State.step] at hs
    split at hs <;> cases hs
    next hnone =>
      exact h.setPage (.init h.shared) fun k hk hp =>
        absurd hp (h.not_cleanup (fun d hd => by simp [hnone] at hd) hk)
  | startRead p =>
    obtain ⟨d, hd, hs⟩ := bind_eq_some_iff.mp hs
    split at hs <;> cases hs
    next hcond =>
      exact h.take hd hcond.2 ⟨rfl, rfl⟩ (fun _ => hcond.1) (by simp [Work.locks]) fun hnone => by
        simpa [Desc.WorkOk, hcond.1] using hnone
  | read p start m =>
    obtain ⟨d, hd, hs⟩ := bind_eq_some_iff.mp hs
    split at hs <;> cases hs
    next hcond => exact h.read hd hcond.1 hcond.2
  | lock p =>
    obtain ⟨d, hd, hs⟩ := bind_eq_some_iff.mp hs
    split at hs <;> cases hs
    next hcond =>
      exact h.take hd hcond.2 ⟨rfl, rfl⟩ (by simp [Work.fresh]) (fun _ => hcond.1) fun hnone => by
        simpa [Desc.WorkOk, hcond.1] using hnone
  | next p =>
    obtain ⟨d, hd, hs⟩ := bind_eq_some_iff.mp hs
    obtain ⟨d', hd', rfl⟩ := map_eq_some_iff.mp hs
    apply h.setPage_of_ne hd
    · intro hwork
      simp [Desc.next, hwork] at hd'
    · apply (h.pages p d hd).next h.shared ?_ hd'
      intro hwork hout i ht hlt
      exact hok d hd hwork hout i (Wal.lt_start i |>.trans hlt) ht hlt
  | evict p =>
    obtain ⟨d, hd, hs⟩ := bind_eq_some_iff.mp hs
    split at hs <;> cases hs
    next hcond => exact h.removePage hd (by simp [hcond.1])
  | worker | workerEvict => exact absurd hok id

/-- Every record up to `lastReplayedEndRecPtr` that touches a valid page is in the page, or the page
is marked, unless a replay is running. -/
def Kept (wal : Wal) (s : State) : Prop :=
  ∀ p d, s.pages p = some d → d.valid = true → d.replaying = false →
    ∀ i, wal.Touches i p → (wal.record i).stop ≤ s.shared.lastReplayed →
      i ∈ d.applied ∨ d.outdate = true

theorem Inv.kept (h : Inv wal s) : Kept wal s := by
  intro p d hd hvalid hreplaying i ht hstop
  have hok := h.pages p d hd
  have hseen : s.shared.Seen wal p i :=
    ⟨ht, .inl ((h.shared.lastReplayed i).mp ((wal.start_lt_stop i).trans_le hstop))⟩
  have hreplays := hok.replaying.symm.trans hreplaying
  have hwork := hok.work
  cases hw : d.work <;> rw [hw] at hreplays hwork
  case none =>
    simp only [Desc.WorkOk, hvalid] at hwork
    exact hwork.2 i hseen
  case content => exact hwork.2 i hseen
  case startup => exact hwork.2 i hseen
  case finished => exact hwork.2 i hseen
  case reading => exact absurd (hvalid.symm.trans (hok.fresh (by rw [hw]; rfl))) (by decide)
  case read => exact absurd (hvalid.symm.trans (hok.fresh (by rw [hw]; rfl))) (by decide)
  case probed => exact absurd (hvalid.symm.trans (hok.fresh (by rw [hw]; rfl))) (by decide)
  all_goals cases hreplays

/-- A buffered page has each record that is parsed, or is marked as outdated. -/
theorem parsed_records_kept {lastReplayed bgReplayed : Nat}
    (hle : lastReplayed ≤ (wal.record 0).start)
    (run : Reaches (State.step wal) (ReplayOk wal) (.init lastReplayed bgReplayed) s) :
    Kept wal s :=
  (run.invariant (Inv wal) (.init hle bgReplayed) fun _ _ _ h hok hs => h.keep hok hs).kept

/-- Records of ten bytes: the first one touches page 0, the others page 1. -/
def tenByteWal : Wal where
  record i :=
    { start := 10 + 10 * i, stop := 20 + 10 * i, multi := false
      blocks := [(if i = 0 then 0 else 1, false)] }
  start_pos := by decide
  start_lt_stop _ := by dsimp only; omega
  stop_le_start _ := by dsimp only; omega

instance (wal : Wal) (s : State) : (op : Op) → Decidable (ReplayOk wal s op)
  | .next p => inferInstanceAs (Decidable (∀ d ∈ s.pages p, d.work = .content → d.outdate = true →
      ∀ i < s.shared.bgReplayed, wal.Touches i p → (wal.record i).start < s.shared.bgReplayed →
        i ∈ d.applied))
  | .worker | .workerEvict => .isFalse id
  | .startup | .insert _ | .startRead _ | .read _ _ _ | .lock _ | .evict _ => .isTrue trivial

/-- Page 0 is read in while its record is being parsed: the startup process has not found it, and
the replay of the page does not reach the record. -/
def faultInRun : List Op :=
  replicate 5 .startup ++ [.insert 0, .startRead 0, .read 0 0 0] ++ replicate 7 (.next 0) ++
    replicate 3 .startup

/-- The page is read from storage while the record is parsed, and comes out marked. -/
theorem parsed_records_kept_fault_in : ∃ s d,
    Reaches (State.step tenByteWal) (ReplayOk tenByteWal) (.init 10 10) s ∧ Kept tenByteWal s ∧
      s.pages 0 = some d ∧ d.valid = true ∧ d.replaying = false ∧ d.applied = [] ∧
      (tenByteWal.record 0).stop ≤ s.shared.lastReplayed ∧ d.outdate = true := by
  obtain ⟨s, run, d, hd, hview⟩ := exists_reaches_tested (State.step tenByteWal)
    (ReplayOk tenByteWal) (.init 10 10) faultInRun
    (fun s => ∃ d ∈ s.pages 0, d.valid = true ∧ d.replaying = false ∧ d.applied = [] ∧
      (tenByteWal.record 0).stop ≤ s.shared.lastReplayed ∧ d.outdate = true) (by decide +kernel)
  exact ⟨s, d, run, parsed_records_kept (by decide) run, hd, hview⟩

end Polar.Replay
