import Polar.Replay.Page
import Mathlib.Data.List.Basic

/-! # The startup process -/

namespace Polar.Replay

open Function

variable {wal : Wal}

section Mark

variable {sh : Shared} {p k : Nat} {d : Desc}

/-- The state after block `k`, which is page `p`. -/
def Shared.marked (wal : Wal) (sh : Shared) (k p : Nat) : Shared :=
  { sh.setAdded wal p with stage := .marked k }

theorem Shared.marked_current : (sh.marked wal k p).current = sh.current := by
  unfold marked setAdded
  split <;> rfl

theorem Shared.marked_inFlight : (sh.marked wal k p).inFlight = sh.inFlight := by
  unfold marked setAdded
  split <;> rfl

theorem Shared.marked_logged : (sh.marked wal k p).logged = sh.logged := by
  unfold marked setAdded
  split <;> rfl

theorem Shared.marked_table : (sh.marked wal k p).table = sh.table := by
  unfold marked setAdded
  split <;> rfl

theorem Shared.marked_started : (sh.marked wal k p).started = sh.started := by
  unfold marked setAdded
  split <;> rfl

theorem Shared.marked_bgReplayed : (sh.marked wal k p).bgReplayed = sh.bgReplayed := by
  unfold marked setAdded
  split <;> rfl

theorem Shared.mem_marked_added {q : Nat} : q ∈ (sh.marked wal k p).added ↔
    q ∈ sh.added ∨ (wal.record sh.current).multi = true ∧ q = p := by
  unfold marked setAdded
  split
  · next hmulti => simp [hmulti, or_comm]
  · next hmulti => simp [hmulti]

/-- The pages that are done, with block `k`. -/
theorem Wal.mem_take_succ {i q : Nat} (hp : wal.pageAt i k = some p) :
    q ∈ (wal.record i).pages.take (k + 1) ↔ q ∈ (wal.record i).pages.take k ∨ q = p := by
  have hget : (wal.record i).pages[k]? = some p := by
    simpa [Wal.pageAt, Record.pages] using hp
  simp [List.take_add_one, hget]

theorem Shared.seen_marked {q i : Nat} (hparsed : sh.parsed wal = k)
    (hrep : sh.replayed = sh.current) (hp : wal.pageAt sh.current k = some p) :
    (sh.marked wal k p).Seen wal q i ↔ sh.Seen wal q i ∨ wal.Touches i q ∧ i = sh.current ∧
      q = p := by
  have hrep' : (sh.marked wal k p).replayed = sh.current := marked_current
  have hparsed' : (sh.marked wal k p).parsed wal = k + 1 := rfl
  simp only [Seen, hrep, hrep', hparsed, hparsed', marked_current]
  by_cases hi : i = sh.current
  · subst hi
    simp only [Wal.mem_take_succ hp]
    tauto
  · simp [hi]

/-- Other pages do not notice. -/
theorem Grows.marked {q : Nat} (hparsed : sh.parsed wal = k) (hrep : sh.replayed = sh.current)
    (hp : wal.pageAt sh.current k = some p) (hq : q ≠ p) :
    Grows wal sh (sh.marked wal k p) q where
  seen i hi := by
    rcases (Shared.seen_marked hparsed hrep hp).mp hi with hi | ⟨_, _, hqp⟩
    · exact hi
    · exact absurd hqp hq
  replayed := by
    rw [hrep]
    exact Shared.marked_current.ge
  cover i hi := by
    rcases hi with hlt | ⟨hcur, hadded⟩
    · exact .inl (by rw [hrep] at hlt; exact hlt.trans_eq Shared.marked_current.symm)
    · exact .inr ⟨hcur.trans Shared.marked_current.symm, Shared.mem_marked_added.mpr (.inl hadded)⟩
  published i _ hi := .inl (by simpa only [Shared.Published, Shared.marked_inFlight] using hi)
  logged i hi := by rwa [Shared.marked_logged]

/-- Marking the page makes something stand for the record. -/
theorem PageOk.mark (h : PageOk wal sh p d) (hparsed : sh.parsed wal = k)
    (hrep : sh.replayed = sh.current) (hp : wal.pageAt sh.current k = some p) :
    PageOk wal (sh.marked wal k p) p (d.mark (wal.record sh.current)) := by
  have hseen : ∀ i, (sh.marked wal k p).Seen wal p i → sh.Seen wal p i ∨ i = sh.current := by
    intro i hi
    exact ((Shared.seen_marked hparsed hrep hp).mp hi).imp_right (·.2.1)
  have hcover : ∀ i, sh.Cover p i → (sh.marked wal k p).Cover p i := by
    rintro i (hlt | ⟨hcur, hadded⟩)
    · exact .inl (by rw [hrep] at hlt; exact hlt.trans_eq Shared.marked_current.symm)
    · exact .inr ⟨hcur.trans Shared.marked_current.symm, Shared.mem_marked_added.mpr (.inl hadded)⟩
  have hmarked : ∀ i, i ≤ sh.current → d.Marked wal i →
      (d.mark (wal.record sh.current)).Marked wal i := by
    intro i hi hm
    simp only [Desc.mark] at hm ⊢
    split
    · exact hm
    · exact Wal.stop_le_stop hi
  have hcurrent : (sh.marked wal k p).Cover p sh.current ∨
      (d.mark (wal.record sh.current)).Marked wal sh.current := by
    cases hmulti : (wal.record sh.current).multi with
    | true => exact .inl (.inr ⟨Shared.marked_current.symm,
        Shared.mem_marked_added.mpr (.inr ⟨hmulti, rfl⟩)⟩)
    | false => exact .inr (by simp [Desc.Marked, Desc.mark, hmulti])
  -- what stood for an old record still does, and the current one is covered and marked
  have keep : ∀ {Q Q' : Nat → Prop}, d.Owes wal sh p Q → (∀ i, i ≤ sh.current → Q i → Q' i) →
      Q' sh.current → (d.mark (wal.record sh.current)).Owes wal (sh.marked wal k p) p Q' := by
    intro Q Q' hQ himp hcur i hi
    rcases hseen i hi with hi | rfl
    · exact (hQ i hi).imp_right (himp i hi.le_current)
    · exact .inr hcur
  have covered : d.Covered wal sh p →
      (d.mark (wal.record sh.current)).Covered wal (sh.marked wal k p) p :=
    fun hc => keep hc (fun i hi hQ => hQ.imp (hcover i) (hmarked i hi)) hcurrent
  have settled : d.Settled wal sh p →
      (d.mark (wal.record sh.current)).Settled wal (sh.marked wal k p) p :=
    fun hs => ⟨covered hs.1, fun _ _ => .inr rfl⟩
  have fresh : d.Fresh wal sh p →
      (d.mark (wal.record sh.current)).Fresh wal (sh.marked wal k p) p := by
    intro hf i hi
    rcases hseen i hi with hi | rfl
    · rcases hf i hi with hQ | hpub
      · exact .inl (hQ.imp (hcover i) (hmarked i hi.le_current))
      · exact .inr (by simpa only [Shared.Published, Shared.marked_inFlight] using hpub)
    · exact .inl hcurrent
  have logged : ∀ stop, sh.LoggedTo wal p stop → (sh.marked wal k p).LoggedTo wal p stop := by
    intro stop hl
    simpa only [Shared.LoggedTo, Shared.marked_logged] using hl
  refine { h with refs := fun hr => ?_, work := ?_ }
  · rw [Shared.marked_table]
    exact h.refs hr
  have hok := h.work
  show (d.mark (wal.record sh.current)).WorkOk wal (sh.marked wal k p) p d.work
  cases hwork : d.work with
  | none =>
    rw [hwork] at hok
    simp only [Desc.WorkOk] at hok ⊢
    split at hok
    · next hvalid =>
      rw [if_pos (show (d.mark (wal.record sh.current)).valid = true from hvalid)]
      exact settled hok
    · next hvalid =>
      rw [if_neg (show ¬ (d.mark (wal.record sh.current)).valid = true from hvalid)]
      exact fresh hok
  | reading => exact fresh (hwork ▸ hok :)
  | read start =>
    rw [hwork] at hok
    exact ⟨fresh hok.1, hok.2⟩
  | probed start arm =>
    rw [hwork] at hok
    exact ⟨hok.1, keep hok.2 (fun i hi hQ => hQ.imp_left (Or.imp (hcover i) (hmarked i hi)))
      (.inl hcurrent)⟩
  | content | startup | finished =>
    rw [hwork] at hok
    exact settled hok
  | enter start | waiting start | locked start =>
    rw [hwork] at hok
    exact ⟨hok.1, covered hok.2⟩
  | noLock start =>
    rw [hwork] at hok
    exact ⟨hok.1, covered hok.2.1, fun _ _ => .inr (.inl (.inl rfl))⟩
  | lockedEnd start stop | sampled start stop =>
    rw [hwork] at hok
    exact ⟨hok.1, covered hok.2.1, logged stop hok.2.2.1, fun _ _ => .inr (.inl (.inl rfl))⟩
  | applied start =>
    rw [hwork] at hok
    exact ⟨hok.1, covered hok.2.1, fun _ _ => .inr (.inl rfl)⟩

/-- The current record is passed with another page. -/
theorem SharedOk.marked (h : SharedOk wal sh) (hlocked : sh.stage.lockedAt = some k)
    (hp : wal.pageAt sh.current k = some p) : SharedOk wal (sh.marked wal k p) := by
  have hstage : sh.replayed = sh.current ∧ sh.parsed wal = k ∧ sh.stage.parses = true ∧
      sh.stage.saved = true ∧ sh.stage ≠ .idle ∧ sh.stage ≠ .ending := by
    cases hs : sh.stage <;> simp only [hs, Stage.lockedAt, Option.some.injEq, reduceCtorEq] at hlocked
    all_goals
      subst hlocked
      simp [Shared.replayed, Shared.parsed, hs, Stage.parses, Stage.saved]
  obtain ⟨hrep, hparsed, hparses, hsaved, hidle, hending⟩ := hstage
  have hrep' : (sh.marked wal k p).replayed = sh.replayed := Shared.marked_current.trans hrep.symm
  constructor
  · intro i
    rw [hrep', ← h.lastReplayed i]
    unfold Shared.marked Shared.setAdded
    split <;> rfl
  · intro _
    rw [Shared.marked_current, ← h.replayEnd hidle]
    unfold Shared.marked Shared.setAdded
    split <;> rfl
  · rintro j ⟨⟩
  · intro i q ht hi
    rw [Shared.marked_logged]
    apply h.logged i q ht
    rw [hrep', Shared.marked_current] at hi
    exact hi.imp_right fun hi => ⟨hi.1, hsaved⟩
  · intro _ hmulti
    rw [Shared.marked_current] at hmulti ⊢
    rw [Shared.marked_inFlight]
    exact h.inFlight hparses hmulti
  · intro _ hmulti q hq
    rw [Shared.marked_current] at hmulti hq
    rw [Shared.mem_marked_added]
    rcases (Wal.mem_take_succ hp).mp hq with hq | rfl
    · exact .inl (h.added hparses hmulti q (hparsed ▸ hq))
    · exact .inr ⟨hmulti, rfl⟩
  · rintro _ j q ⟨⟩
  · intro q hq
    rw [Shared.marked_table]
    rcases Shared.mem_marked_added.mp hq with hq | ⟨hmulti, rfl⟩
    · exact h.table q hq
    · exact h.lockedAt hmulti k q hlocked hp
  · intro q hq
    rw [Shared.marked_table] at hq
    rw [Shared.marked_current]
    exact ⟨rfl, (h.active q hq).2⟩
  · intro q hq
    rw [Shared.marked_table] at hq
    rw [Shared.marked_started]
    exact .inl ((h.started q hq).resolve_right hending)
  · intro _ hmulti
    rw [Shared.marked_current] at hmulti
    rw [Shared.marked_started]
    exact h.mini hparses hmulti

end Mark

section Stages

variable {sh : Shared} {p k : Nat}

/-- A step of the parse that passes no page, and may put a page into the mini transaction. -/
theorem SharedOk.setStage (h : SharedOk wal sh) {stage : Stage} {table : List Nat}
    {lastReplayedRead : Nat} (hparses : sh.stage.parses = true) (hparses' : stage.parses = true)
    (hparsed : ∀ q ∈ (wal.record sh.current).pages.take (Shared.parsed wal { sh with stage }),
      q ∈ (wal.record sh.current).pages.take (sh.parsed wal))
    (htable : ∀ q ∈ sh.table, q ∈ table)
    (hmulti : ∀ q ∈ table, q ∈ sh.table ∨ (wal.record sh.current).multi = true)
    (hlocked : (wal.record sh.current).multi = true → ∀ k q, stage.lockedAt = some k →
      wal.pageAt sh.current k = some q → q ∈ table) :
    SharedOk wal { sh with stage, table, lastReplayedRead } := by
  have hstage : ∀ st : Stage, st.parses = true → st ≠ .idle ∧ st ≠ .ending ∧ st.saved = true := by
    intro st hst
    cases st <;> simp_all [Stage.parses, Stage.saved]
  obtain ⟨hidle, hending, hsaved⟩ := hstage sh.stage hparses
  obtain ⟨_, _, hsaved'⟩ := hstage stage hparses'
  have hrep : sh.replayed = sh.current := Shared.replayed_of_parses hparses
  have hrep' : Shared.replayed { sh with stage, table, lastReplayedRead } = sh.current :=
    Shared.replayed_of_parses hparses'
  refine ⟨?_, fun _ => h.replayEnd hidle, ?_, ?_, fun _ => h.inFlight hparses, ?_, hlocked,
    fun q hq => htable q (h.table q hq), ?_, ?_, fun _ => h.mini hparses⟩
  · intro i
    rw [hrep', ← hrep]
    exact h.lastReplayed i
  · rintro k rfl
    cases hparses'
  · intro i q ht hi
    exact h.logged i q ht
      (hi.imp (·.trans_eq (hrep'.trans hrep.symm)) fun hi => ⟨hi.1, hsaved⟩)
  · exact fun _ hmulti q hq => h.added hparses hmulti q (hparsed q hq)
  · intro q hq
    rcases hmulti q hq with hq | hmulti
    · exact ⟨hsaved', (h.active q hq).2⟩
    · exact ⟨hsaved', hmulti⟩
  · intro q hq
    rcases hmulti q hq with hq | hmulti
    · exact .inl ((h.started q hq).resolve_right hending)
    · exact .inl (h.mini hparses hmulti)

theorem Grows.setStage {stage : Stage} {table : List Nat} {lastReplayedRead : Nat}
    (hparses : sh.stage.parses = true) (hparses' : stage.parses = true)
    (hparsed : ∀ q ∈ (wal.record sh.current).pages.take (Shared.parsed wal { sh with stage }),
      q ∈ (wal.record sh.current).pages.take (sh.parsed wal)) (q : Nat) :
    Grows wal sh { sh with stage, table, lastReplayedRead } q := by
  have hrep : Shared.replayed { sh with stage, table, lastReplayedRead } = sh.replayed :=
    (Shared.replayed_of_parses hparses').trans (Shared.replayed_of_parses hparses).symm
  refine ⟨?_, hrep.ge, ?_, fun _ _ hi => .inl hi, fun _ => id⟩
  · rintro i ⟨ht, hi⟩
    refine ⟨ht, hi.imp (·.trans_eq hrep) ?_⟩
    rintro ⟨rfl, hmem⟩
    exact ⟨rfl, hparsed q hmem⟩
  · rintro i (hlt | hi)
    · exact .inl (hlt.trans_eq hrep.symm)
    · exact .inr hi

/-- The mini transaction is empty before the parse. -/
theorem SharedOk.table_nil (h : SharedOk wal sh) (hsaved : sh.stage.saved = false) :
    ∀ q, q ∉ sh.table := by
  intro q hq
  exact absurd ((h.active q hq).1.symm.trans hsaved) (by decide)

/-- Before the parse only finished records have been passed. -/
theorem Shared.Seen.lt_replayed {q i : Nat} (hi : sh.Seen wal q i) (hparsed : sh.parsed wal = 0) :
    i < sh.replayed := by
  rcases hi.2 with hlt | ⟨_, hmem⟩
  · exact hlt
  · simp [hparsed] at hmem

section

variable (h : SharedOk wal sh)
include h

theorem SharedOk.begin (hstage : sh.stage = .idle) :
    SharedOk wal
      { sh with replayEnd := (wal.record sh.current).stop, stage := .saving 0 } := by
  have hrep : sh.replayed = sh.current := by simp [Shared.replayed, hstage]
  have hnil := h.table_nil (by rw [hstage]; rfl)
  refine ⟨?_, fun _ => rfl, ?_, ?_, ?_, ?_, ?_, h.table,
    fun q hq => absurd hq (hnil q), fun q hq => absurd hq (hnil q), ?_⟩
  · exact fun i => (h.lastReplayed i).trans (by rw [hrep]; exact Iff.rfl)
  · rintro k ⟨⟩
    simp
  · rintro i q ht (hlt | ⟨_, hsaved⟩)
    · exact h.logged i q ht (.inl (hlt.trans_eq hrep.symm))
    · cases hsaved
  · rintro ⟨⟩
  · rintro ⟨⟩
  · rintro _ _ _ ⟨⟩
  · rintro ⟨⟩

theorem SharedOk.save (hstage : sh.stage = .saving k) (hp : wal.pageAt sh.current k = some p) :
    SharedOk wal
      { sh with
        logged := update sh.logged p (sh.logged p ++ [sh.current])
        stage := .saving (k + 1) } := by
  have hrep : sh.replayed = sh.current := by simp [Shared.replayed, hstage]
  have hnil := h.table_nil (by rw [hstage]; rfl)
  have hlogged : ∀ q i, i ∈ sh.logged q →
      i ∈ update sh.logged p (sh.logged p ++ [sh.current]) q := by
    intro q i hi
    by_cases hq : q = p
    · subst hq
      rw [update_self]
      exact List.mem_append_left _ hi
    · rwa [update_of_ne hq]
  refine ⟨?_, fun _ => h.replayEnd (by simp [hstage]), ?_, ?_, ?_, ?_, ?_, h.table,
    fun q hq => absurd hq (hnil q), fun q hq => absurd hq (hnil q), ?_⟩
  · exact fun i => (h.lastReplayed i).trans (by rw [hrep]; exact Iff.rfl)
  · intro j hj q hq
    cases hj
    rcases (Wal.mem_take_succ hp).mp hq with hq | rfl
    · exact hlogged q _ (h.saving k hstage q hq)
    · simp
  · rintro i q ht (hlt | ⟨_, hsaved⟩)
    · exact hlogged q i (h.logged i q ht (.inl (hlt.trans_eq hrep.symm)))
    · cases hsaved
  · rintro ⟨⟩
  · rintro ⟨⟩
  · rintro _ _ _ ⟨⟩
  · rintro ⟨⟩

/-- The record is in the logindex, and is published or gets a mini transaction. -/
theorem SharedOk.publish (hstage : sh.stage = .saving k)
    (hend : (wal.record sh.current).blocks[k]? = none) {inFlight : Option (List Nat × Nat)}
    {started : Bool} (hflight : (wal.record sh.current).multi = false →
      inFlight = some ((wal.record sh.current).pages, (wal.record sh.current).stop))
    (hmini : (wal.record sh.current).multi = true → started = true) :
    SharedOk wal { sh with inFlight, started, stage := .block 0 } := by
  have hrep : sh.replayed = sh.current := by simp [Shared.replayed, hstage]
  have hnil := h.table_nil (by rw [hstage]; rfl)
  have hall : (wal.record sh.current).pages.take k = (wal.record sh.current).pages := by
    apply List.take_of_length_le
    simpa [Record.pages] using List.getElem?_eq_none_iff.mp hend
  refine ⟨?_, fun _ => h.replayEnd (by simp [hstage]), ?_, ?_, fun _ => hflight, ?_, ?_,
    h.table, fun q hq => absurd hq (hnil q), fun q hq => absurd hq (hnil q), fun _ => hmini⟩
  · exact fun i => (h.lastReplayed i).trans (by rw [hrep]; exact Iff.rfl)
  · rintro j ⟨⟩
  · rintro i q ht (hlt | ⟨rfl, _⟩)
    · exact h.logged i q ht (.inl (hlt.trans_eq hrep.symm))
    · exact h.saving k hstage q (by rw [hall]; exact ht)
  · intro _ _ q hq
    simp [Shared.parsed] at hq
  · rintro _ _ _ ⟨⟩

/-- All blocks are done, and `lastReplayedEndRecPtr` covers the record. -/
theorem SharedOk.advance (hstage : sh.stage = .published) :
    SharedOk wal { sh with lastReplayed := (wal.record sh.current).stop, stage := .advanced } := by
  have hrep : sh.replayed = sh.current := by simp [Shared.replayed, hstage]
  refine ⟨?_, fun _ => h.replayEnd (by simp [hstage]), ?_, ?_, ?_, ?_, ?_, h.table,
    fun q hq => ⟨rfl, (h.active q hq).2⟩, ?_, ?_⟩
  · exact fun i => Wal.start_lt_stop_iff.trans Nat.lt_succ_iff.symm
  · rintro j ⟨⟩
  · intro i q ht hi
    apply h.logged i q ht
    have hle : i ≤ sh.current := by
      rcases hi with hlt | ⟨rfl, _⟩
      · exact Nat.lt_succ_iff.mp hlt
      · exact le_rfl
    rcases lt_or_eq_of_le hle with hlt | rfl
    · exact .inl (hlt.trans_eq hrep.symm)
    · exact .inr ⟨rfl, by rw [hstage]; rfl⟩
  · rintro ⟨⟩
  · rintro ⟨⟩
  · rintro _ _ _ ⟨⟩
  · intro q hq
    exact .inl ((h.started q hq).resolve_right (by simp [hstage]))
  · rintro ⟨⟩

/-- The mini transaction begins to end. -/
theorem SharedOk.endMini (hstage : sh.stage = .advanced) :
    SharedOk wal { sh with started := false, stage := .ending } := by
  have hrep : sh.replayed = sh.current + 1 := by simp [Shared.replayed, hstage]
  refine ⟨?_, fun _ => h.replayEnd (by simp [hstage]), ?_, ?_, ?_, ?_, ?_, h.table,
    fun q hq => ⟨rfl, (h.active q hq).2⟩, fun _ _ => .inr rfl, ?_⟩
  · exact fun i => (h.lastReplayed i).trans (by rw [hrep]; exact Iff.rfl)
  · rintro j ⟨⟩
  · intro i q ht hi
    exact h.logged i q ht (hi.imp (·.trans_eq hrep.symm) fun hi => ⟨hi.1, by rw [hstage]; rfl⟩)
  · rintro ⟨⟩
  · rintro ⟨⟩
  · rintro _ _ _ ⟨⟩
  · rintro ⟨⟩

/-- The next record, with nothing left of this one. -/
theorem SharedOk.nextRecord (hrep : sh.replayed = sh.current + 1)
    {inFlight : Option (List Nat × Nat)} {table added : List Nat} (htable : ∀ q, q ∉ table)
    (hadded : ∀ q, q ∉ added) :
    SharedOk wal (Shared.nextRecord { sh with inFlight, table, added }) := by
  refine ⟨?_, fun hidle => absurd rfl hidle, ?_, ?_, nofun, nofun, nofun,
    fun q hq => absurd hq (hadded q), fun q hq => absurd hq (htable q),
    fun q hq => absurd hq (htable q), nofun⟩
  · exact fun i => (h.lastReplayed i).trans (by rw [hrep]; exact Iff.rfl)
  · rintro j ⟨⟩
  · rintro i q ht (hlt | ⟨_, hsaved⟩)
    · exact h.logged i q ht (.inl (hlt.trans_eq hrep.symm))
    · cases hsaved

end

/-- Before the parse, all records that have been passed are finished. -/
theorem Grows.of_unparsed {sh' : Shared} (hcur : sh'.current = sh.current)
    (hrep : sh'.replayed = sh.replayed) (hparsed : sh.parsed wal = 0)
    (hparsed' : sh'.parsed wal = 0) (hadded : sh'.added = sh.added) {q : Nat}
    (hlogged : ∀ i, i ∈ sh.logged q → i ∈ sh'.logged q) : Grows wal sh sh' q where
  seen i hi := ⟨hi.1, .inl (hrep ▸ hi.lt_replayed hparsed')⟩
  replayed := hrep.ge
  cover i hi := by
    simpa only [Shared.Cover, hcur, hrep, hadded] using hi
  published i hi _ := .inr (hrep ▸ hi.lt_replayed hparsed)
  logged := hlogged

/-- The blocks are done, so all pages of the record have been passed. -/
theorem Grows.advance (hstage : sh.stage = .published) (q lastReplayed : Nat) :
    Grows wal sh { sh with lastReplayed, stage := .advanced } q := by
  have hrep : sh.replayed = sh.current := by simp [Shared.replayed, hstage]
  refine ⟨?_, ?_, ?_, fun _ _ hi => .inl hi, fun _ => id⟩
  · intro i hi
    rcases lt_or_eq_of_le hi.le_current with hlt | heq
    · exact ⟨hi.1, .inl (hlt.trans_eq hrep.symm)⟩
    · obtain rfl : i = sh.current := heq
      refine ⟨hi.1, .inr ⟨rfl, ?_⟩⟩
      have hparsed : sh.parsed wal = (wal.record sh.current).blocks.length := by
        simp [Shared.parsed, hstage]
      rw [hparsed, List.take_of_length_le (by simp [Record.pages])]
      exact hi.1
  · rw [hrep]
    exact Nat.le_succ _
  · rintro i (hlt | hi)
    · exact .inl (hlt.trans_le (by rw [hrep]; exact Nat.le_succ _))
    · exact .inr hi

theorem Grows.endMini (hstage : sh.stage = .advanced) (q : Nat) :
    Grows wal sh { sh with started := false, stage := .ending } q := by
  have hrep : sh.replayed = sh.current + 1 := by simp [Shared.replayed, hstage]
  refine ⟨?_, hrep.le, ?_, fun _ _ hi => .inl hi, fun _ => id⟩
  · intro i hi
    exact ⟨hi.1, .inl (hrep ▸ Nat.lt_succ_iff.mpr hi.le_current)⟩
  · rintro i (hlt | hi)
    · exact .inl (hlt.trans_eq hrep)
    · exact .inr hi

/-- A finished record is covered by `lastReplayedEndRecPtr`. -/
theorem Grows.nextRecord (hrep : sh.replayed = sh.current + 1) {inFlight : Option (List Nat × Nat)}
    {table added : List Nat} (q : Nat) :
    Grows wal sh (Shared.nextRecord { sh with inFlight, table, added }) q := by
  have hrep' : (Shared.nextRecord { sh with inFlight, table, added }).replayed = sh.current + 1 := rfl
  refine ⟨?_, (hrep.trans hrep'.symm).le, ?_, ?_, fun _ => id⟩
  · intro i hi
    exact ⟨hi.1, .inl (by rw [hrep]; exact hi.lt_replayed rfl)⟩
  · rintro i (hlt | ⟨rfl, _⟩)
    · exact .inl (hlt.trans_eq hrep)
    · exact .inl (Nat.lt_succ_self _)
  · exact fun i hi _ => .inr (Nat.lt_succ_iff.mpr hi.le_current)

end Stages

end Polar.Replay
