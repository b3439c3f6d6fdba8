import Polar.Replay.Invariant

/-! # The work on a page -/

namespace Polar.Replay

open List

variable (wal : Wal)

namespace Stage

/-- The blocks of the current record are being parsed, and `lastReplayedEndRecPtr` does not cover
it. -/
def parses : Stage → Bool
  | .block _ | .locked _ | .found _ | .cleanup _ | .cleanupLocked _ | .marked _ | .published => true
  | _ => false

/-- The block whose page lock is held or has been held, for a mini transaction. -/
def lockedAt : Stage → Option Nat
  | .locked k | .found k | .cleanup k | .cleanupLocked k => some k
  | _ => none

/-- The current record is in the logindex. -/
def saved : Stage → Bool
  | .idle | .saving _ => false
  | _ => true

end Stage

/-- What the startup process keeps up. -/
structure SharedOk (sh : Shared) : Prop where
  lastReplayed : ∀ i, (wal.record i).start < sh.lastReplayed ↔ i < sh.replayed
  replayEnd : sh.stage ≠ .idle → sh.replayEnd = (wal.record sh.current).stop
  saving : ∀ k, sh.stage = .saving k →
    ∀ p ∈ (wal.record sh.current).pages.take k, sh.current ∈ sh.logged p
  logged : ∀ i p, wal.Touches i p → i < sh.replayed ∨ i = sh.current ∧ sh.stage.saved = true →
    i ∈ sh.logged p
  inFlight : sh.stage.parses = true → (wal.record sh.current).multi = false →
    sh.inFlight = some ((wal.record sh.current).pages, (wal.record sh.current).stop)
  added : sh.stage.parses = true → (wal.record sh.current).multi = true →
    ∀ p ∈ (wal.record sh.current).pages.take (sh.parsed wal), p ∈ sh.added
  lockedAt : (wal.record sh.current).multi = true → ∀ k p, sh.stage.lockedAt = some k →
    wal.pageAt sh.current k = some p → p ∈ sh.table
  table : ∀ p ∈ sh.added, p ∈ sh.table
  active : ∀ p ∈ sh.table, sh.stage.saved = true ∧ (wal.record sh.current).multi = true
  started : ∀ p ∈ sh.table, sh.started = true ∨ sh.stage = .ending
  mini : sh.stage.parses = true → (wal.record sh.current).multi = true → sh.started = true

variable {wal}

namespace Shared

variable {sh : Shared} {p i : Nat}

theorem current_le_replayed (sh : Shared) : sh.current ≤ sh.replayed := by
  unfold replayed
  split <;> omega

theorem replayed_le (sh : Shared) : sh.replayed ≤ sh.current + 1 := by
  unfold replayed
  split <;> omega

theorem replayed_of_parses (h : sh.stage.parses = true) : sh.replayed = sh.current := by
  revert h
  unfold replayed
  cases sh.stage <;> simp [Stage.parses]

theorem Seen.le_current (h : sh.Seen wal p i) : i ≤ sh.current := by
  rcases h.2 with hlt | ⟨rfl, _⟩
  · exact Nat.le_of_lt_succ (hlt.trans_le sh.replayed_le)
  · exact le_rfl

end Shared

namespace SharedOk

variable {sh : Shared} {p i : Nat}

variable (h : SharedOk wal sh)
include h

theorem loggedTo_lastReplayed (p : Nat) :
    sh.LoggedTo wal p sh.lastReplayed :=
  fun i ht hlt => h.logged i p ht (.inl ((h.lastReplayed i).mp hlt))

/-- Once the page lock is found, the current record is in the logindex. -/
theorem loggedTo_replayEnd (htable : p ∈ sh.table) :
    sh.LoggedTo wal p sh.replayEnd := by
  intro i ht hlt
  have hsaved := (h.active p htable).1
  have hidle : sh.stage ≠ .idle := fun e => by simp [e, Stage.saved] at hsaved
  rw [h.replayEnd hidle] at hlt
  rcases lt_or_eq_of_le (Wal.start_lt_stop_iff.mp hlt) with hlt | rfl
  · exact h.logged i p ht (.inl (hlt.trans_le sh.current_le_replayed))
  · exact h.logged _ p ht (.inr ⟨rfl, hsaved⟩)

/-- A record the startup process has passed with page `p` is found by whoever reads the page. -/
theorem cover_or_published (hseen : sh.Seen wal p i) :
    sh.Cover p i ∨ sh.Published wal p i := by
  obtain ⟨ht, hlt | ⟨rfl, hparsed⟩⟩ := hseen
  · exact .inl (.inl hlt)
  · cases hparses : sh.stage.parses with
    | true =>
      cases hmulti : (wal.record sh.current).multi with
      | true => exact .inl (.inr ⟨rfl, h.added hparses hmulti p hparsed⟩)
      | false => exact .inr ⟨_, h.inFlight hparses hmulti, ht⟩
    | false =>
      refine .inl (.inl ?_)
      cases hstage : sh.stage <;> simp only [hstage, Stage.parses, Bool.true_eq_false] at hparses
      case idle => simp [Shared.parsed, hstage] at hparsed
      case saving k => simp [Shared.parsed, hstage] at hparsed
      case advanced => simp [Shared.replayed, hstage]
      case ending => simp [Shared.replayed, hstage]

/-- Without the page lock the current record is covered by `lastReplayedEndRecPtr` or not at all. -/
theorem lt_replayed_of_cover (hno : ¬ (sh.started = true ∧ p ∈ sh.table))
    (hcover : sh.Cover p i) : i < sh.replayed := by
  rcases hcover with hlt | ⟨rfl, hadded⟩
  · exact hlt
  · have htable := h.table p hadded
    rcases h.started p htable with hstarted | hending
    · exact absurd ⟨hstarted, htable⟩ hno
    · simp [Shared.replayed, hending]

end SharedOk

section Apply

variable {d : Desc} {p : Nat}

/-- Applying records changes the contents of the page only. -/
theorem foldl_applyRecord (wal : Wal) (records : List Nat) (d : Desc) :
    ∃ lsn applied, records.foldl (Desc.applyRecord wal) d = { d with lsn, applied } ∧
      (∀ i, i ∈ applied ↔ i ∈ records ∨ i ∈ d.applied) ∧
      (lsn = d.lsn ∨ ∃ j ∈ records, lsn = (wal.record j).stop) := by
  induction records generalizing d with
  | nil => exact ⟨d.lsn, d.applied, rfl, by simp, .inl rfl⟩
  | cons j records ih =>
    obtain ⟨lsn, applied, heq, hmem, hlsn⟩ := ih (d.applyRecord wal j)
    refine ⟨lsn, applied, heq, ?_, ?_⟩
    · intro i
      rw [hmem i]
      simp only [Desc.applyRecord, mem_cons]
      tauto
    · rcases hlsn with rfl | ⟨k, hk, rfl⟩
      · exact .inr ⟨j, mem_cons_self, rfl⟩
      · exact .inr ⟨k, mem_cons_of_mem _ hk, rfl⟩

/-- `polar_logindex_apply_page` brings the page up to where it says. -/
theorem applyPage_spec {logged : List Nat} {start stop : Nat} (hclosed : d.Complete wal p d.lsn)
    (hstart : d.Complete wal p start)
    (hlogged : ∀ i, wal.Touches i p → (wal.record i).start < stop → i ∈ logged) :
    ∃ lsn applied upto,
      d.applyPage wal logged start stop = { d with lsn, applied, work := .applied upto } ∧
      d.applied ⊆ applied ∧ stop ≤ upto ∧
      (∀ i, wal.Touches i p → (wal.record i).start < upto → i ∈ applied) ∧
      (∀ i, wal.Touches i p → (wal.record i).start < lsn → i ∈ applied) := by
  have hmax : d.Complete wal p (max start d.lsn) := by
    intro i ht hlt
    rcases (by omega : (wal.record i).start < start ∨ (wal.record i).start < d.lsn) with hlt | hlt
    · exact hstart i ht hlt
    · exact hclosed i ht hlt
  by_cases hle : stop ≤ max start d.lsn
  · exact ⟨d.lsn, d.applied, _, by simp only [Desc.applyPage, if_pos hle], List.Subset.refl _, hle,
      hmax, hclosed⟩
  · obtain ⟨lsn, applied, heq, hmem, hlsn⟩ := foldl_applyRecord wal
      (logged.filter fun i =>
        max start d.lsn ≤ (wal.record i).start ∧ (wal.record i).start < stop) d
    have hall : ∀ i, wal.Touches i p → (wal.record i).start < stop → i ∈ applied := by
      intro i ht histop
      rw [hmem i]
      by_cases hi : (wal.record i).start < max start d.lsn
      · exact .inr (hmax i ht hi)
      · exact .inl (mem_filter.mpr ⟨hlogged i ht histop,
          decide_eq_true ⟨Nat.le_of_not_lt hi, histop⟩⟩)
    refine ⟨lsn, applied, stop, by simp only [Desc.applyPage, if_neg hle, heq],
      fun i hi => (hmem i).mpr (.inr hi), le_rfl, hall, ?_⟩
    intro i ht hi
    rcases hlsn with rfl | ⟨j, hj, rfl⟩
    · exact (hmem i).mpr (.inr (hclosed i ht hi))
    · have hj := of_decide_eq_true (mem_filter.mp hj).2
      exact hall i ht (Wal.start_lt_of_lt_stop hi hj.2)

/-- A page on storage has the records before record `m`. -/
theorem read_spec (wal : Wal) (d : Desc) (p m : Nat) :
    ∃ lsn applied, ((range m).filter fun i => p ∈ (wal.record i).pages).foldl
        (Desc.applyRecord wal) { d with lsn := 0, applied := [] } = { d with lsn, applied } ∧
      (∀ i, wal.Touches i p → (wal.record i).start < (wal.record m).start → i ∈ applied) ∧
      (∀ i, wal.Touches i p → (wal.record i).start < lsn → i ∈ applied) := by
  obtain ⟨lsn, applied, heq, hmem, hlsn⟩ := foldl_applyRecord wal
    ((range m).filter fun i => p ∈ (wal.record i).pages) { d with lsn := 0, applied := [] }
  have hall : ∀ i, wal.Touches i p → (wal.record i).start < (wal.record m).start → i ∈ applied := by
    intro i ht hlt
    apply (hmem i).mpr
    exact .inl (mem_filter.mpr
      ⟨mem_range.mpr (Wal.start_lt_start_iff.mp hlt), decide_eq_true ht⟩)
  refine ⟨lsn, applied, heq, hall, ?_⟩
  intro i ht hi
  rcases hlsn with rfl | ⟨j, hj, rfl⟩
  · exact absurd hi (Nat.not_lt_zero _)
  · have hj := mem_range.mp (mem_filter.mp hj).1
    exact hall i ht (Wal.start_lt_of_lt_stop hi (Wal.start_lt_start_iff.mpr hj))

end Apply

section Work

variable {sh : Shared} {p : Nat} {d d' : Desc}

theorem PageOk.init (hsh : SharedOk wal sh) : PageOk wal sh p .init where
  closed _ _ hlt := absurd hlt (Nat.not_lt_zero _)
  refs := by simp [Desc.init, Work.refs]
  replaying := rfl
  fresh := by simp [Desc.init]
  locks := by simp [Desc.init, Work.locks]
  work := by
    intro i hi
    rcases hsh.cover_or_published hi with hcover | hpub
    · exact .inl (.inl hcover)
    · exact .inr hpub

/-- A watermark only grows when a replay begins. -/
theorem Desc.Marked.begin {i start arm : Nat} (h : d.Marked wal i) :
    (d.begin start arm).Marked wal i := by
  simp only [Desc.Marked, Desc.begin] at h ⊢
  split <;> omega

theorem Desc.marked_begin_of_arm {i start arm : Nat} (h : (wal.record i).stop ≤ arm) :
    (d.begin start arm).Marked wal i := by
  simp only [Desc.Marked, Desc.begin]
  split <;> omega

variable (h : PageOk wal sh p d)
include h

theorem PageOk.begin {start arm : Nat} (hstart : d.Complete wal p start)
    (howes : d.Owes wal sh p fun i =>
      (sh.Cover p i ∨ d.Marked wal i) ∨ (wal.record i).stop ≤ arm) :
    PageOk wal sh p (d.begin start arm) where
  closed := h.closed
  refs := by simp [Desc.begin, Work.refs]
  replaying := rfl
  fresh := by simp [Desc.begin, Work.fresh]
  locks := by simp [Desc.begin, Work.locks]
  work := by
    refine ⟨hstart, howes.mono (fun _ => id) (List.Subset.refl _) ?_⟩
    rintro i _ ((hcover | hmarked) | harm)
    · exact .inl hcover
    · exact .inr hmarked.begin
    · exact .inr (Desc.marked_begin_of_arm harm)

/-- The end of the loop: start over, or leave the mark for what is still owed. -/
theorem PageOk.check {start : Nat} (hwork : d.work = .applied start) :
    PageOk wal sh p (d.check start) := by
  have hok := h.work
  rw [hwork] at hok
  obtain ⟨hstart, hcovered, howes⟩ := hok
  have hreplaying := h.replaying
  rw [hwork] at hreplaying
  unfold Desc.check
  split
  · exact ⟨h.closed, by simp [Work.refs], hreplaying, by simp [Work.fresh], by simp [Work.locks],
      hstart, hcovered⟩
  · next hout =>
    split
    · exact ⟨h.closed, by simp [Work.refs], rfl, by simp [Work.fresh], by simp [Work.locks],
        hcovered, howes.imp fun _ _ _ _ => rfl⟩
    · next hmark =>
      refine ⟨h.closed, by simp [Work.refs], rfl, by simp [Work.fresh], by simp [Work.locks],
        hcovered, howes.imp ?_⟩
      rintro i hi hnot (hout' | hmarked)
      · exact absurd hout' hout
      · -- the watermark is reached, and with it the record
        have hle : (wal.record i).stop ≤ start := hmarked.trans (Nat.le_of_not_lt hmark)
        exact absurd (hstart i hi.1 ((wal.start_lt_stop i).trans_le hle)) hnot

theorem PageOk.applyPage {start stop : Nat} (hwork : d.work = .sampled start stop) :
    PageOk wal sh p (d.applyPage wal (sh.logged p) start stop) := by
  have hok := h.work
  rw [hwork] at hok
  obtain ⟨hstart, hcovered, hlogged, howes⟩ := hok
  have hreplaying := h.replaying
  rw [hwork] at hreplaying
  obtain ⟨lsn, applied, upto, heq, hsub, hle, hall, hclosed⟩ :=
    applyPage_spec h.closed hstart hlogged
  rw [heq]
  refine ⟨hclosed, by simp [Work.refs], hreplaying, by simp [Work.fresh], by simp [Work.locks],
    hall, hcovered.mono (fun _ => id) hsub fun _ _ => id, ?_⟩
  intro i hi
  rcases howes i hi with hmem | (hout | hlt)
  · exact .inl (hsub hmem)
  · exact .inr hout
  · exact .inl (hall i hi.1 (hlt.trans_le hle))

/-- A step of the work on a page. A replay under the content lock starts where nothing is
missing. -/
theorem PageOk.next (hsh : SharedOk wal sh)
    (hbg : d.work = .content → d.outdate = true → d.Complete wal p sh.bgReplayed)
    (hs : d.next wal sh p = some d') : PageOk wal sh p d' := by
  have hok := h.work
  have hreplaying := h.replaying
  have hrefs := h.refs
  cases hwork : d.work <;> simp only [Desc.next, hwork] at hs hok hreplaying hrefs
  case none => cases hs
  case reading => cases hs
  case startup => cases hs
  case read start =>
    cases hs
    refine ⟨h.closed, by simp [Work.refs], hreplaying, fun _ => h.fresh (by rw [hwork]; rfl),
      by simp [Work.locks], hok.2, ?_⟩
    intro i hi
    rcases hok.1 i hi with hcover | ⟨tags, hflight, hp⟩
    · exact .inr (.inl hcover)
    · exact .inr (.inr (by simp [Shared.inFlightLsn, hflight, hp]))
  case probed start arm =>
    cases hs
    exact h.begin hok.1 hok.2
  case content =>
    split at hs <;> cases hs
    · next hout => exact h.begin (hbg hwork hout) (hok.1.imp fun _ _ _ hQ => .inl hQ)
    · refine ⟨h.closed, by simp [Work.refs], hreplaying, by simp [Work.fresh],
        by simp [Work.locks], ?_⟩
      have hvalid : d.valid = true := h.locks (by rw [hwork]; rfl)
      simp only [Desc.WorkOk, hvalid]
      exact hok
  case enter start =>
    split at hs <;> cases hs
    · next hcond =>
      exact ⟨h.closed, fun _ => hcond.2, hreplaying, by simp [Work.fresh], by simp [Work.locks], hok⟩
    · next hcond =>
      refine ⟨h.closed, by simp [Work.refs], hreplaying, by simp [Work.fresh], by simp [Work.locks],
        hok.1, hok.2, hok.2.imp ?_⟩
      rintro i _ _ (hcover | hmarked)
      · exact .inr (hsh.lt_replayed_of_cover hcond hcover)
      · exact .inl (.inr hmarked)
  case waiting start =>
    split at hs <;> cases hs
    exact ⟨h.closed, hrefs, hreplaying, by simp [Work.fresh], by simp [Work.locks], hok⟩
  case locked start =>
    cases hs
    have htable := hrefs rfl
    refine ⟨h.closed, fun _ => htable, hreplaying, by simp [Work.fresh], by simp [Work.locks],
      hok.1, hok.2, ?_, hok.2.imp ?_⟩
    · split
      · exact hsh.loggedTo_replayEnd htable
      · exact hsh.loggedTo_lastReplayed p
    · rintro i hi _ (hcover | hmarked)
      · refine .inr ?_
        have hidle : sh.stage ≠ .idle := fun e => by
          simpa [e, Stage.saved] using (hsh.active p htable).1
        split
        · rw [hsh.replayEnd hidle]
          exact Wal.start_lt_stop_iff.mpr hi.le_current
        · next hadded =>
          apply (hsh.lastReplayed i).mpr
          rcases hcover with hlt | ⟨_, hadded'⟩
          · exact hlt
          · exact absurd hadded' hadded
      · exact .inl (.inr hmarked)
  case lockedEnd start stop =>
    cases hs
    exact ⟨h.closed, by simp [Work.refs], hreplaying, by simp [Work.fresh], by simp [Work.locks], hok⟩
  case noLock start =>
    cases hs
    exact ⟨h.closed, by simp [Work.refs], hreplaying, by simp [Work.fresh], by simp [Work.locks],
      hok.1, hok.2.1, hsh.loggedTo_lastReplayed p,
      hok.2.2.imp fun i _ _ hQ => hQ.imp_right (hsh.lastReplayed i).mpr⟩
  case sampled start stop =>
    cases hs
    exact h.applyPage hwork
  case applied start =>
    cases hs
    exact h.check hwork
  case finished =>
    cases hs
    exact ⟨h.closed, by simp [Work.refs], hreplaying, by simp [Work.fresh], by simp [Work.locks], hok⟩

end Work

end Polar.Replay
