import Polar.Replay.System
import Mathlib.Order.Nat

/-!
# What a page owes

The startup process has passed a page with a record once the page is marked, or found not to be
buffered. From then on the page has the record, or something stands for it: the mark, the watermark,
the page lock of the mini transaction, the publication, or `lastReplayedEndRecPtr`. Which of these
it is depends on the work on the page.
-/

namespace Polar.Replay

variable (wal : Wal)

namespace Wal

/-- Record `i` touches page `p`. -/
def Touches (i p : Nat) : Prop := p ∈ (wal.record i).pages

instance (i p : Nat) : Decidable (wal.Touches i p) :=
  inferInstanceAs (Decidable (p ∈ (wal.record i).pages))

variable {wal} {i j : Nat}

theorem stop_le_start_of_lt (h : i < j) : (wal.record i).stop ≤ (wal.record j).start := by
  induction j with
  | zero => exact absurd h (Nat.not_lt_zero i)
  | succ j ih =>
    rcases Nat.lt_succ_iff_lt_or_eq.mp h with hlt | rfl
    · calc (wal.record i).stop ≤ (wal.record j).start := ih hlt
        _ ≤ (wal.record j).stop := (wal.start_lt_stop j).le
        _ ≤ (wal.record (j + 1)).start := wal.stop_le_start j
    · exact wal.stop_le_start i

theorem start_lt_stop_iff : (wal.record i).start < (wal.record j).stop ↔ i ≤ j := by
  constructor
  · intro h
    by_contra hlt
    exact absurd h (Nat.not_lt.mpr (stop_le_start_of_lt (Nat.lt_of_not_le hlt)))
  · intro h
    rcases lt_or_eq_of_le h with hlt | rfl
    · exact (wal.start_lt_stop i).trans_le ((stop_le_start_of_lt hlt).trans (wal.start_lt_stop j).le)
    · exact wal.start_lt_stop i

theorem start_lt_start_iff : (wal.record i).start < (wal.record j).start ↔ i < j := by
  constructor
  · intro h
    by_contra hle
    rcases lt_or_eq_of_le (Nat.le_of_not_lt hle) with hlt | rfl
    · exact absurd h (Nat.not_lt.mpr ((wal.start_lt_stop j).le.trans (stop_le_start_of_lt hlt)))
    · exact absurd h (lt_irrefl _)
  · intro h
    exact (wal.start_lt_stop i).trans_le (stop_le_start_of_lt h)

theorem stop_le_stop (h : i ≤ j) : (wal.record i).stop ≤ (wal.record j).stop := by
  rcases lt_or_eq_of_le h with hlt | rfl
  · exact (stop_le_start_of_lt hlt).trans (wal.start_lt_stop j).le
  · exact le_rfl

/-- A record that starts before the end of record `j` starts before whatever `j` starts before. -/
theorem start_lt_of_lt_stop {lsn : Nat} (h : (wal.record i).start < (wal.record j).stop)
    (hj : (wal.record j).start < lsn) : (wal.record i).start < lsn := by
  rcases lt_or_eq_of_le (start_lt_stop_iff.mp h) with hij | rfl
  · exact (start_lt_start_iff.mpr hij).trans hj
  · exact hj

end Wal

namespace Shared

variable (sh : Shared)

/-- The number of records that `lastReplayedEndRecPtr` covers. -/
def replayed : Nat :=
  match sh.stage with
  | .advanced | .ending => sh.current + 1
  | _ => sh.current

/-- The number of blocks of the current record that are done. -/
def parsed : Nat :=
  match sh.stage with
  | .idle | .saving _ => 0
  | .block k | .locked k | .found k | .cleanup k | .cleanupLocked k => k
  | .marked k => k + 1
  | .published | .advanced | .ending => (wal.record sh.current).blocks.length

/-- The startup process has passed page `p` with record `i`. -/
def Seen (p i : Nat) : Prop :=
  wal.Touches i p ∧
    (i < sh.replayed ∨ i = sh.current ∧ p ∈ (wal.record i).pages.take (sh.parsed wal))

/-- A replay of `p` that is still to sample its upper bound finds record `i`. -/
def Cover (p i : Nat) : Prop :=
  i < sh.replayed ∨ i = sh.current ∧ p ∈ sh.added

/-- A process that reads page `p` finds record `i` published. -/
def Published (p i : Nat) : Prop :=
  ∃ tags, sh.inFlight = some (tags, (wal.record i).stop) ∧ p ∈ tags

/-- The logindex has every record of the page that starts before `stop`. -/
def LoggedTo (p stop : Nat) : Prop :=
  ∀ i, wal.Touches i p → (wal.record i).start < stop → i ∈ sh.logged p

end Shared

namespace Desc

/-- The page has every record that starts before `lsn`. -/
def Complete (d : Desc) (p lsn : Nat) : Prop :=
  ∀ i, wal.Touches i p → (wal.record i).start < lsn → i ∈ d.applied

/-- Record `i` is below the watermark. -/
def Marked (d : Desc) (i : Nat) : Prop := (wal.record i).stop ≤ d.outdateLsn

variable (sh : Shared)

/-- What stands for the records that the startup process has passed, and the page does not have. -/
def Owes (p : Nat) (d : Desc) (Q : Nat → Prop) : Prop :=
  ∀ i, sh.Seen wal p i → i ∈ d.applied ∨ Q i

/-- The next replay will find what the page owes. -/
def Covered (p : Nat) (d : Desc) : Prop :=
  d.Owes wal sh p fun i => sh.Cover p i ∨ d.Marked wal i

/-- So will the one that reads the page, whatever it has on storage. -/
def Fresh (p : Nat) (d : Desc) : Prop :=
  ∀ i, sh.Seen wal p i → (sh.Cover p i ∨ d.Marked wal i) ∨ sh.Published wal p i

/-- Nobody replays the page, and it is marked if it owes anything. -/
def Settled (p : Nat) (d : Desc) : Prop :=
  d.Covered wal sh p ∧ d.Owes wal sh p fun _ => d.outdate = true

/-- What the page has at each point of the work. -/
def WorkOk (p : Nat) (d : Desc) : Work → Prop
  | .none => if d.valid then d.Settled wal sh p else d.Fresh wal sh p
  | .reading => d.Fresh wal sh p
  | .read start => d.Fresh wal sh p ∧ d.Complete wal p start
  | .probed start arm =>
    d.Complete wal p start ∧ d.Owes wal sh p fun i =>
      (sh.Cover p i ∨ d.Marked wal i) ∨ (wal.record i).stop ≤ arm
  | .content | .startup | .finished => d.Settled wal sh p
  | .enter start | .waiting start | .locked start =>
    d.Complete wal p start ∧ d.Covered wal sh p
  | .noLock start =>
    d.Complete wal p start ∧ d.Covered wal sh p ∧ d.Owes wal sh p fun i =>
      (d.outdate = true ∨ d.Marked wal i) ∨ i < sh.replayed
  | .lockedEnd start stop | .sampled start stop =>
    d.Complete wal p start ∧ d.Covered wal sh p ∧ sh.LoggedTo wal p stop ∧
      d.Owes wal sh p fun i =>
        (d.outdate = true ∨ d.Marked wal i) ∨ (wal.record i).start < stop
  | .applied start =>
    d.Complete wal p start ∧ d.Covered wal sh p ∧ d.Owes wal sh p fun i =>
      d.outdate = true ∨ d.Marked wal i

end Desc

namespace Work

/-- The page is being replayed. -/
def replays : Work → Bool
  | .enter _ | .waiting _ | .locked _ | .lockedEnd _ _ | .noLock _ | .sampled _ _ | .applied _ =>
    true
  | _ => false

/-- A lock of the content is held, and the page is not being replayed. -/
def locks : Work → Bool
  | .content | .startup => true
  | _ => false

/-- The page is not read yet, or its replay has not begun. -/
def fresh : Work → Bool
  | .reading | .read _ | .probed _ _ => true
  | _ => false

end Work

/-- What holds of a buffered page. -/
structure PageOk (sh : Shared) (p : Nat) (d : Desc) : Prop where
  closed : d.Complete wal p d.lsn
  refs : d.work.refs = true → p ∈ sh.table
  replaying : d.replaying = d.work.replays
  fresh : d.work.fresh = true → d.valid = false
  locks : d.work.locks = true → d.valid = true
  work : d.WorkOk wal sh p d.work

variable {wal}

namespace Desc

variable {sh sh' : Shared} {p : Nat} {d d' : Desc} {Q Q' : Nat → Prop}

theorem Owes.mono (h : d.Owes wal sh p Q) (hseen : ∀ i, sh'.Seen wal p i → sh.Seen wal p i)
    (happ : d.applied ⊆ d'.applied) (hQ : ∀ i, sh'.Seen wal p i → Q i → Q' i) :
    d'.Owes wal sh' p Q' := by
  intro i hi
  rcases h i (hseen i hi) with hmem | hq
  · exact .inl (happ hmem)
  · exact .inr (hQ i hi hq)

/-- A change of what stands for the records. -/
theorem Owes.imp (h : d.Owes wal sh p Q) (hQ : ∀ i, sh.Seen wal p i → i ∉ d.applied → Q i → Q' i) :
    d.Owes wal sh p Q' := by
  intro i hi
  by_cases hmem : i ∈ d.applied
  · exact .inl hmem
  · exact .inr (hQ i hi hmem ((h i hi).resolve_left hmem))

end Desc

variable (wal) in
/-- A step of the startup process that passes page `p` with no new record. -/
structure Grows (sh sh' : Shared) (p : Nat) : Prop where
  seen : ∀ i, sh'.Seen wal p i → sh.Seen wal p i
  replayed : sh.replayed ≤ sh'.replayed
  cover : ∀ i, sh.Cover p i → sh'.Cover p i
  published : ∀ i, sh.Seen wal p i → sh.Published wal p i →
    sh'.Published wal p i ∨ i < sh'.replayed
  logged : ∀ i, i ∈ sh.logged p → i ∈ sh'.logged p

/-- What the page has is enough as the startup process goes on. -/
theorem Grows.workOk {sh sh' : Shared} {p : Nat} {d : Desc} (g : Grows wal sh sh' p)
    {work : Work} (h : d.WorkOk wal sh p work) : d.WorkOk wal sh' p work := by
  have owes : ∀ {Q Q' : Nat → Prop}, d.Owes wal sh p Q →
      (∀ i, sh.Seen wal p i → Q i → Q' i) → d.Owes wal sh' p Q' :=
    fun hQ himp => hQ.mono g.seen (List.Subset.refl _) fun i hi => himp i (g.seen i hi)
  have covered : d.Covered wal sh p → d.Covered wal sh' p :=
    fun hc => owes hc fun i _ hQ => hQ.imp_left (g.cover i)
  have fresh : d.Fresh wal sh p → d.Fresh wal sh' p := by
    intro hf i hi
    rcases hf i (g.seen i hi) with (hcover | hmarked) | hpub
    · exact .inl (.inl (g.cover i hcover))
    · exact .inl (.inr hmarked)
    · rcases g.published i (g.seen i hi) hpub with hpub | hlt
      · exact .inr hpub
      · exact .inl (.inl (.inl hlt))
  have settled : d.Settled wal sh p → d.Settled wal sh' p :=
    fun hs => ⟨covered hs.1, owes hs.2 fun _ _ => id⟩
  have logged : ∀ stop, sh.LoggedTo wal p stop → sh'.LoggedTo wal p stop :=
    fun stop hl i ht hlt => g.logged i (hl i ht hlt)
  cases work with
  | none =>
    simp only [Desc.WorkOk] at h ⊢
    split at h
    · next hvalid =>
      rw [if_pos hvalid]
      exact settled h
    · next hvalid =>
      rw [if_neg hvalid]
      exact fresh h
  | reading => exact fresh h
  | read start => exact ⟨fresh h.1, h.2⟩
  | probed start arm => exact ⟨h.1, owes h.2 fun i _ hQ => hQ.imp_left (Or.imp_left (g.cover i))⟩
  | content | startup | finished => exact settled h
  | enter start | waiting start | locked start => exact ⟨h.1, covered h.2⟩
  | noLock start =>
    exact ⟨h.1, covered h.2.1, owes h.2.2 fun i _ hQ => hQ.imp_right (·.trans_le g.replayed)⟩
  | lockedEnd start stop | sampled start stop =>
    exact ⟨h.1, covered h.2.1, logged stop h.2.2.1, owes h.2.2.2 fun _ _ => id⟩
  | applied start => exact ⟨h.1, covered h.2.1, owes h.2.2 fun _ _ => id⟩

theorem Grows.pageOk {sh sh' : Shared} {p : Nat} {d : Desc} (g : Grows wal sh sh' p)
    (h : PageOk wal sh p d) (hrefs : d.work.refs = true → p ∈ sh'.table) : PageOk wal sh' p d :=
  { h with refs := hrefs, work := g.workOk h.work }

end Polar.Replay
