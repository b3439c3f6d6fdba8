import Polar.FullPage.Snapshot

/-!
# What a replica restores

The old version that is saved with a record has been replayed by the replica, or it is not newer
than the record before. So the first record that the replica has not replayed has an image that it
has; a later one, which it finds when the first is missing in its logindex, need not.
-/

namespace Polar.FullPage

open List Function

variable {α κ : Type*} {page : Page α κ} {s t : State α κ} {v : Version α}

/-- The version holds every change up to its LSN. -/
structure Page.Whole (page : Page α κ) (history : List (Change κ)) (insert : Nat) (v : Version α) :
    Prop where
  le : v.lsn ≤ insert
  content : v.content = page.contentAt history v.lsn

/-- The record is logged, and its image is in the file. -/
def State.Done (s : State α κ) (f : Fpsi α) : Prop :=
  f ∈ s.records ∧ s.slots f.fullpageNo = some f.image

/-- The replica has replayed the version, or can restore the one before. -/
def State.Covered (s : State α κ) (v : Version α) : Prop :=
  v.lsn ≤ s.replayed ∨ ∃ f, s.Done f ∧ v.lsn ≤ f.lsn

namespace Flush

/-- What a flush has done before it writes the page. -/
def Ok (s : State α κ) : Flush α → Prop
  | idle => ∀ f ∈ s.records, s.slots f.fullpageNo = some f.image
  | logged f => f ∈ s.records ∧ s.buffer.lsn ≤ f.lsn ∧ (∀ g ∈ s.records, g.lsn ≤ f.lsn) ∧
      ∀ g ∈ s.records, g = f ∨ s.slots g.fullpageNo = some g.image
  | imaged => (∃ f ∈ s.records, s.buffer.lsn ≤ f.lsn) ∧
      ∀ f ∈ s.records, s.slots f.fullpageNo = some f.image

end Flush

namespace Reader

/-- What the replica has read. -/
def Ok (page : Page α κ) (s : State α κ) : Reader α → Prop
  | idle => True
  | read v => s.Covered v
  | found f replayed => s.Done f ∧ f.image.lsn ≤ replayed
  | restored image replayed => ∃ v, image = some v ∧ page.Whole s.history s.insert v ∧ v.lsn ≤ replayed

end Reader

/-- The invariant of the page. -/
structure Inv (page : Page α κ) (s : State α κ) : Prop where
  sorted : s.history.Pairwise fun c d => c.lsn ≤ d.lsn
  history_le : ∀ c ∈ s.history, c.lsn ≤ s.buffer.lsn
  buffer : page.Whole s.history s.insert s.buffer
  copyBuffer : ∀ c ∈ s.copyBuffer, page.Whole s.history s.insert c
  storage : page.Whole s.history s.insert s.storage
  covered : s.Covered s.storage
  ordered : s.records.Pairwise fun f g => f.lsn < g.lsn
  lsn_lt : ∀ f ∈ s.records, f.lsn < s.insert
  no_lt : ∀ f ∈ s.records, f.fullpageNo < s.maxFullpageNo
  no_inj : ∀ f ∈ s.records, ∀ g ∈ s.records, f.fullpageNo = g.fullpageNo → f = g
  image : ∀ f ∈ s.records, page.Whole s.history s.insert f.image
  older : ∀ f ∈ s.records, f.image.lsn ≤ s.replayed ∨
    ∃ g ∈ s.records, g.lsn < f.lsn ∧ f.image.lsn ≤ g.lsn
  flush : s.flush.Ok s
  reader : s.reader.Ok page s

theorem applyAll_append (redo : κ → α → α) (a : α) (l l' : List (Change κ)) :
    applyAll redo a (l ++ l') = applyAll redo (applyAll redo a l) l' :=
  foldl_append

/-- The records up to a position are those up to an earlier one, and those after it. -/
theorem filter_le_eq_append {l : List (Change κ)} (h : l.Pairwise fun c d => c.lsn ≤ d.lsn)
    {i j : Nat} (hij : i ≤ j) : (l.filter fun c => c.lsn ≤ j) =
      (l.filter fun c => c.lsn ≤ i) ++ l.filter fun c => i < c.lsn ∧ c.lsn ≤ j := by
  induction l with
  | nil => rfl
  | cons c rest ih =>
    obtain ⟨hc, hrest⟩ := pairwise_cons.mp h
    by_cases hci : c.lsn ≤ i
    · have hcj : c.lsn ≤ j := hci.trans hij
      simp [hci, hcj, ih hrest]
    · -- Nothing after the record is up to the earlier position either.
      have hnone : (rest.filter fun c => c.lsn ≤ i) = [] := by
        apply filter_eq_nil_iff.mpr
        intro d hd
        have := hc d hd
        simp only [decide_eq_true_eq]
        omega
      have hlt : i < c.lsn := Nat.lt_of_not_le hci
      have hih := ih hrest
      by_cases hcj : c.lsn ≤ j
      · simp [hcj, hlt, hnone, hih]
      · simp [hci, hcj, hih]

namespace Page.Whole

variable {history : List (Change κ)} {insert : Nat}

variable (h : page.Whole history insert v)
include h

/-- Replay from a whole version gives the page. -/
theorem replayTo
    (hsorted : history.Pairwise fun c d => c.lsn ≤ d.lsn) {lsn : Nat} (hle : v.lsn ≤ lsn) :
    page.replayTo history v lsn = page.contentAt history lsn := by
  calc page.replayTo history v lsn
      = applyAll page.redo (page.contentAt history v.lsn)
          (history.filter fun c => v.lsn < c.lsn ∧ c.lsn ≤ lsn) := by
        rw [Page.replayTo, h.content]
    _ = applyAll page.redo page.base.content ((history.filter fun c => c.lsn ≤ v.lsn) ++
          history.filter fun c => v.lsn < c.lsn ∧ c.lsn ≤ lsn) := by
        rw [applyAll_append, Page.contentAt]
    _ = page.contentAt history lsn := by
        rw [← filter_le_eq_append hsorted hle, Page.contentAt]

theorem log (len : Nat) : page.Whole history (insert + len) v :=
  ⟨h.le.trans (Nat.le_add_right _ _), h.content⟩

/-- A change that is logged later is no part of the version. -/
theorem change {len : Nat} (hlen : 0 < len) (c : κ) :
    page.Whole (history ++ [⟨insert + len, c⟩]) (insert + len) v := by
  refine ⟨h.le.trans (Nat.le_add_right _ _), ?_⟩
  have hle := h.le
  have hnot : ¬ insert + len ≤ v.lsn := by omega
  rw [h.content, Page.contentAt, Page.contentAt]
  simp [hnot]

end Page.Whole

theorem State.Covered.mono (h : s.Covered v) (hreplayed : s.replayed ≤ t.replayed)
    (hdone : ∀ f, s.Done f → t.Done f) : t.Covered v :=
  h.imp (fun hle => hle.trans hreplayed) fun ⟨f, hf, hle⟩ => ⟨f, hdone f hf, hle⟩

/-- What the replica has read stays as it was. -/
theorem Reader.Ok.mono {r : Reader α} (h : r.Ok page s) (hreplayed : s.replayed ≤ t.replayed)
    (hdone : ∀ f, s.Done f → t.Done f)
    (hwhole : ∀ v, page.Whole s.history s.insert v → page.Whole t.history t.insert v) :
    r.Ok page t := by
  cases r with
  | idle => trivial
  | read v => exact State.Covered.mono h hreplayed hdone
  | found f replayed => exact ⟨hdone f h.1, h.2⟩
  | restored image replayed =>
    obtain ⟨v, himage, hv, hle⟩ := h
    exact ⟨v, himage, hwhole v hv, hle⟩

namespace Inv

theorem init : Inv page (State.init page) := by
  have hbase : page.Whole [] page.insert page.base :=
    ⟨page.base_le.trans page.replayed_le, rfl⟩
  exact {
    sorted := List.Pairwise.nil
    history_le := by simp [State.init]
    buffer := hbase
    copyBuffer := by simp [State.init]
    storage := hbase
    covered := .inl page.base_le
    ordered := List.Pairwise.nil
    lsn_lt := by simp [State.init]
    no_lt := by simp [State.init]
    no_inj := by simp [State.init]
    image := by simp [State.init]
    older := by simp [State.init]
    flush := by simp [State.init, Flush.Ok]
    reader := trivial }

/-- Every record but the one that is being logged has its image. -/
theorem done_or_logged (h : Inv page s) {f : Fpsi α} (hf : f ∈ s.records) :
    s.Done f ∨ s.flush = .logged f ∧ ∀ g ∈ s.records, g.lsn ≤ f.lsn := by
  have hflush := h.flush
  cases hphase : s.flush with
  | idle =>
    rw [hphase] at hflush
    exact .inl ⟨hf, hflush f hf⟩
  | logged g =>
    rw [hphase] at hflush
    obtain ⟨-, -, hlast, hslots⟩ := hflush
    rcases hslots f hf with rfl | hslot
    · exact .inr ⟨rfl, hlast⟩
    · exact .inl ⟨hf, hslot⟩
  | imaged =>
    rw [hphase] at hflush
    exact .inl ⟨hf, hflush.2 f hf⟩

theorem eq_of_lsn_eq (h : Inv page s) {f g : Fpsi α} (hf : f ∈ s.records) (hg : g ∈ s.records)
    (heq : f.lsn = g.lsn) : f = g := by
  by_contra hne
  have hsymm : Std.Symm fun f g : Fpsi α => f.lsn ≠ g.lsn := ⟨fun _ _ h => h.symm⟩
  exact (h.ordered.imp fun hlt => ne_of_lt hlt).forall hf hg hne heq

/-- In a logindex without a gap, what precedes the first record that is not replayed is replayed. -/
theorem lt_of_firstFrom (h : Inv page s) (hcomplete : s.Complete) {f g : Fpsi α}
    (hf : s.firstFrom s.replayed = some f) (hg : g ∈ s.records) (hlt : g.lsn < f.lsn) :
    g.lsn < s.replayed := by
  by_contra hnot
  have hreplayed := Nat.le_of_not_lt hnot
  obtain ⟨hfound, before, after, hsplit, hbefore⟩ := List.find?_eq_some_iff_append.mp hf
  have hindexed := hcomplete f (mem_of_find?_eq_some hf) g hg hreplayed hlt
    (Bool.and_eq_true_iff.mp hfound).2
  have hpair := h.ordered
  rw [hsplit] at hg hpair
  rcases mem_append.mp hg with hgb | hga
  · have := hbefore g hgb
    simp [hreplayed, hindexed] at this
  · rcases mem_cons.mp hga with rfl | hga
    · exact absurd hlt (lt_irrefl _)
    · have hfg := rel_of_pairwise_cons (pairwise_append.mp hpair).2.1 hga
      omega

/-- A replica that has read a version beyond its replay position has a record to find. -/
theorem exists_done (h : s.Covered v) (hfuture : s.replayed < v.lsn) :
    ∃ g, s.Done g ∧ s.replayed < g.lsn := by
  rcases h with hle | ⟨g, hg, hle⟩
  · exact absurd hle (Nat.not_le_of_lt hfuture)
  · exact ⟨g, hg, hfuture.trans_le hle⟩

section

variable (h : Inv page s)
include h

/-- The first record that is not replayed has an image that is in the file and is replayed. -/
theorem done_of_firstFrom {f : Fpsi α} (hv : s.Covered v) (hcomplete : s.Complete)
    (hfuture : s.replayed < v.lsn) (hf : s.firstFrom s.replayed = some f) :
    s.Done f ∧ f.image.lsn ≤ s.replayed := by
  have hmem : f ∈ s.records := mem_of_find?_eq_some hf
  obtain ⟨g, hg, hlt⟩ := exists_done hv hfuture
  constructor
  · rcases h.done_or_logged hmem with hdone | ⟨-, hlast⟩
    · exact hdone
    · -- A record that has its image is not after this one, and not before it.
      have hle : f.lsn ≤ g.lsn := by
        by_contra hnot
        have := h.lt_of_firstFrom hcomplete hf hg.1 (Nat.lt_of_not_le hnot)
        omega
      rwa [h.eq_of_lsn_eq hmem hg.1 (hle.antisymm (hlast g hg.1))]
  · rcases h.older f hmem with hle | ⟨g', hg', hlt', hle'⟩
    · exact hle
    · have := h.lt_of_firstFrom hcomplete hf hg' hlt'
      omega

/-- WAL that does not change the page. -/
theorem log (len : Nat) (no : Nat) :
    Inv page { s with insert := s.insert + len, maxFullpageNo := s.maxFullpageNo + no } :=
  { h with
    buffer := h.buffer.log len
    copyBuffer := fun c hc => (h.copyBuffer c hc).log len
    storage := h.storage.log len
    lsn_lt := fun f hf => (h.lsn_lt f hf).trans_le (Nat.le_add_right _ _)
    no_lt := fun f hf => (h.no_lt f hf).trans_le (Nat.le_add_right _ _)
    image := fun f hf => (h.image f hf).log len
    reader := h.reader.mono le_rfl (fun _ hf => hf) fun _ hv => hv.log len }

theorem change {len : Nat} {c : κ} (hidle : s.flush = .idle) (hlen : 0 < len) :
    Inv page { s with
      history := s.history ++ [⟨s.insert + len, c⟩]
      insert := s.insert + len
      buffer := ⟨s.insert + len, page.redo c s.buffer.content⟩ } := by
  have hle := h.buffer.le
  have hflush := h.flush
  rw [hidle] at hflush
  refine { h with
    sorted := ?_
    history_le := ?_
    buffer := ⟨le_rfl, ?_⟩
    copyBuffer := fun c' hc => (h.copyBuffer c' hc).change hlen c
    storage := h.storage.change hlen c
    lsn_lt := fun f hf => (h.lsn_lt f hf).trans_le (Nat.le_add_right _ _)
    image := fun f hf => (h.image f hf).change hlen c
    flush := ?_
    reader := h.reader.mono le_rfl (fun _ hf => hf) fun _ hv => hv.change hlen c }
  · refine pairwise_append.mpr ⟨h.sorted, pairwise_singleton _ _, ?_⟩
    intro d hd d' hd'
    obtain rfl := mem_singleton.mp hd'
    have := h.history_le d hd
    simp only
    omega
  · intro d hd
    rcases mem_append.mp hd with hd | hd
    · have := h.history_le d hd
      simp only
      omega
    · rw [mem_singleton.mp hd]
  · -- The buffer holds every change, and now this one.
    have hall : ∀ d ∈ s.history, d.lsn ≤ s.buffer.lsn := h.history_le
    have hfilter : (s.history.filter fun d => d.lsn ≤ s.insert + len) =
        s.history.filter fun d => d.lsn ≤ s.buffer.lsn := by
      apply filter_congr
      intro d hd
      have := hall d hd
      simp only [decide_eq_decide]
      omega
    have hlast : (s.history ++ [(⟨s.insert + len, c⟩ : Change κ)]).filter
          (fun d => d.lsn ≤ s.insert + len) =
        (s.history.filter fun d => d.lsn ≤ s.buffer.lsn) ++ [⟨s.insert + len, c⟩] := by
      rw [filter_append, hfilter]
      simp
    rw [Page.contentAt, hlast, applyAll_append, ← Page.contentAt, ← h.buffer.content]
    rfl
  · simp only [hidle]
    exact hflush

theorem flushVersion (hidle : s.flush = .idle)
    (hv : page.Whole s.history s.insert v) (hle : v.lsn ≤ s.replayed) :
    Inv page { s with storage := v, copyBuffer := none } := by
  have hflush := h.flush
  rw [hidle] at hflush
  refine { h with copyBuffer := by simp, storage := hv, covered := .inl hle, flush := ?_ }
  simp only [hidle]
  exact hflush

theorem whole_oldVersion (oldestApplyLsn : Nat) :
    page.Whole s.history s.insert (s.oldVersion oldestApplyLsn) := by
  unfold State.oldVersion
  split
  · next c hc =>
    split
    · exact h.copyBuffer c hc
    · exact h.storage
  · exact h.storage

/-- The old version is replayed, or the image of a record is there for it. -/
theorem covered_oldVersion {oldestApplyLsn : Nat}
    (hok : ∀ c ∈ s.copyBuffer, c.lsn ≤ oldestApplyLsn → c.lsn ≤ s.replayed) :
    s.Covered (s.oldVersion oldestApplyLsn) := by
  unfold State.oldVersion
  split
  · next c hc =>
    split
    · next hle => exact .inl (hok c hc hle)
    · exact h.covered
  · exact h.covered

/-- The version before is logged. -/
theorem logFullpage {oldestApplyLsn len : Nat} (hidle : s.flush = .idle) (hlen : 0 < len)
    (hok : ∀ c ∈ s.copyBuffer, c.lsn ≤ oldestApplyLsn → c.lsn ≤ s.replayed) :
    Inv page { s with
      records := s.records ++ [⟨s.insert, s.maxFullpageNo, s.oldVersion oldestApplyLsn⟩]
      insert := s.insert + len
      maxFullpageNo := s.maxFullpageNo + 1
      flush := .logged ⟨s.insert, s.maxFullpageNo, s.oldVersion oldestApplyLsn⟩ } := by
  set f : Fpsi α := ⟨s.insert, s.maxFullpageNo, s.oldVersion oldestApplyLsn⟩ with hf
  have hflush := h.flush
  rw [hidle] at hflush
  have hdone : ∀ g, s.Done g →
      g ∈ s.records ++ [f] ∧ s.slots g.fullpageNo = some g.image :=
    fun g hg => ⟨mem_append_left _ hg.1, hg.2⟩
  have hcases {g : Fpsi α} (hg : g ∈ s.records ++ [f]) : g ∈ s.records ∨ g = f := by
    simpa using hg
  refine { h with
    buffer := h.buffer.log len
    copyBuffer := fun c hc => (h.copyBuffer c hc).log len
    storage := h.storage.log len
    covered := h.covered.mono le_rfl hdone
    ordered := ?_
    lsn_lt := ?_
    no_lt := ?_
    no_inj := ?_
    image := ?_
    older := ?_
    flush := ⟨by simp, h.buffer.le, ?_, ?_⟩
    reader := h.reader.mono le_rfl hdone fun _ hv => hv.log len }
  · refine pairwise_append.mpr ⟨h.ordered, pairwise_singleton _ _, ?_⟩
    intro g hg g' hg'
    rw [mem_singleton.mp hg']
    exact h.lsn_lt g hg
  · intro g hg
    rcases hcases hg with hg | rfl
    · exact (h.lsn_lt g hg).trans_le (Nat.le_add_right _ _)
    · exact Nat.lt_add_of_pos_right hlen
  · intro g hg
    rcases hcases hg with hg | rfl
    · exact (h.no_lt g hg).trans (Nat.lt_succ_self _)
    · exact Nat.lt_succ_self _
  · intro g hg g' hg' heq
    rcases hcases hg with hg | rfl <;> rcases hcases hg' with hg' | rfl
    · exact h.no_inj g hg g' hg' heq
    · exact absurd heq (ne_of_lt (h.no_lt g hg))
    · exact absurd heq.symm (ne_of_lt (h.no_lt g' hg'))
    · rfl
  · intro g hg
    rcases hcases hg with hg | rfl
    · exact (h.image g hg).log len
    · exact (h.whole_oldVersion oldestApplyLsn).log len
  · intro g hg
    rcases hcases hg with hg | rfl
    · exact (h.older g hg).imp id fun ⟨g', hg', hlt⟩ => ⟨g', mem_append_left _ hg', hlt⟩
    · refine (h.covered_oldVersion hok).imp id fun ⟨g', hg', hle⟩ => ?_
      exact ⟨g', mem_append_left _ hg'.1, h.lsn_lt g' hg'.1, hle⟩
  · intro g hg
    rcases hcases hg with hg | rfl
    · exact (h.lsn_lt g hg).le
    · exact le_rfl
  · intro g hg
    rcases hcases hg with hg | hg
    · exact .inr (hflush g hg)
    · exact .inl hg

end

/-- A slot is written that holds no image of a record of the page that is done. -/
theorem done_update {no : Nat} {image : Version α}
    (hno : ∀ f ∈ s.records, f.fullpageNo = no → f.image = image) {f : Fpsi α} (hf : s.Done f) :
    f ∈ s.records ∧ update s.slots no (some image) f.fullpageNo = some f.image := by
  refine ⟨hf.1, ?_⟩
  by_cases heq : f.fullpageNo = no
  · rw [heq, update_self, hno f hf.1 heq]
  · rw [update_of_ne heq]
    exact hf.2

section

variable (h : Inv page s)
include h

theorem writeFullpage {f : Fpsi α} (hlogged : s.flush = .logged f) :
    Inv page { s with
      slots := update s.slots f.fullpageNo (some f.image)
      flush := .imaged } := by
  have hflush := h.flush
  rw [hlogged] at hflush
  obtain ⟨hf, hbuffer, -, hslots⟩ := hflush
  have hno : ∀ g ∈ s.records, g.fullpageNo = f.fullpageNo → g.image = f.image :=
    fun g hg heq => by rw [h.no_inj g hg f hf heq]
  refine { h with
    covered := h.covered.mono le_rfl fun g hg => done_update hno hg
    flush := ⟨⟨f, hf, hbuffer⟩, ?_⟩
    reader := h.reader.mono le_rfl (fun g hg => done_update hno hg) fun _ hv => hv }
  intro g hg
  rcases hslots g hg with rfl | hslot
  · simp
  · exact (done_update hno ⟨hg, hslot⟩).2

theorem writePage (himaged : s.flush = .imaged) :
    Inv page { s with storage := s.buffer, copyBuffer := none, flush := .idle } := by
  have hflush := h.flush
  rw [himaged] at hflush
  obtain ⟨⟨f, hf, hle⟩, hslots⟩ := hflush
  exact { h with
    copyBuffer := by simp
    storage := h.buffer
    covered := .inr ⟨f, ⟨hf, hslots f hf⟩, hle⟩
    flush := hslots }

theorem writeOther {no : Nat} (hother : ∀ f ∈ s.records, f.fullpageNo ≠ no) :
    Inv page { s with slots := update s.slots no (some v) } := by
  have hno : ∀ f ∈ s.records, f.fullpageNo = no → f.image = v :=
    fun f hf heq => absurd heq (hother f hf)
  refine { h with
    covered := h.covered.mono le_rfl fun g hg => done_update hno hg
    flush := ?_
    reader := h.reader.mono le_rfl (fun g hg => done_update hno hg) fun _ hv => hv }
  have hflush := h.flush
  have hkeep {f : Fpsi α} (hf : f ∈ s.records) (hslot : s.slots f.fullpageNo = some f.image) :=
    (done_update hno ⟨hf, hslot⟩).2
  cases hphase : s.flush with
  | idle =>
    rw [hphase] at hflush
    exact fun f hf => hkeep hf (hflush f hf)
  | logged f =>
    rw [hphase] at hflush
    obtain ⟨hf, hbuffer, hlast, hslots⟩ := hflush
    exact ⟨hf, hbuffer, hlast, fun g hg => (hslots g hg).imp id (hkeep hg)⟩
  | imaged =>
    rw [hphase] at hflush
    exact ⟨hflush.1, fun f hf => hkeep hf (hflush.2 f hf)⟩

theorem replay {lsn : Nat} (hle : s.replayed ≤ lsn) :
    Inv page { s with replayed := lsn } :=
  { h with
    covered := h.covered.mono hle fun _ hf => hf
    older := fun f hf => (h.older f hf).imp (fun hlsn => hlsn.trans hle) id
    reader := h.reader.mono hle (fun _ hf => hf) fun _ hv => hv }

theorem setReader {r : Reader α} (hr : r.Ok page s) :
    Inv page { s with reader := r } :=
  { h with reader := hr.mono le_rfl (fun _ hf => hf) fun _ hv => hv }

theorem setIndex (received : Nat) (indexed : Nat → Bool) :
    Inv page { s with received := received, indexed := indexed } :=
  { h with reader := h.reader.mono le_rfl (fun _ hf => hf) fun _ hv => hv }

end

theorem step {op : Op α κ} (h : Inv page s) (hok : Applied s op) (hs : s.step page op = some t) :
    Inv page t := by
  have hreader := h.reader
  cases op <;> simp only [State.step] at hs
  case change len c =>
    split at hs
    · next hidle =>
      split at hs <;> cases hs
      next hlen => exact h.change hidle hlen
    · cases hs
  case log len =>
    split at hs <;> cases hs
    exact h.log len 0
  case copy =>
    split at hs <;> cases hs
    refine { h with copyBuffer := fun c hc => ?_ }
    cases hc
    exact h.buffer
  case flush oldestApplyLsn =>
    split at hs
    · next hidle =>
      split at hs <;> cases hs
      next hle => exact h.flushVersion hidle h.buffer (hle.trans hok)
    · cases hs
  case flushCopy oldestApplyLsn =>
    split at hs
    · next hidle hcopy =>
      split at hs <;> cases hs
      next c hle => exact h.flushVersion hidle (h.copyBuffer c hcopy) (hle.trans hok)
    · cases hs
  case logFullpage oldestApplyLsn len =>
    split at hs
    · next hidle =>
      split at hs <;> cases hs
      next hfuture => exact h.logFullpage hidle hfuture.2 hok
    · cases hs
  case writeFullpage =>
    split at hs <;> cases hs
    next f hlogged => exact h.writeFullpage hlogged
  case writePage =>
    split at hs <;> cases hs
    next himaged => exact h.writePage himaged
  case logOther len =>
    split at hs <;> cases hs
    exact h.log len 1
  case writeOther no v =>
    split at hs <;> cases hs
    next hother => exact h.writeOther hother.2
  case replay lsn =>
    split at hs <;> cases hs
    next hle => exact h.replay hle.1
  case read =>
    split at hs <;> cases hs
    exact h.setReader (r := .read s.storage) h.covered
  case index =>
    split at hs <;> cases hs
    exact h.setIndex _ _
  case drop =>
    split at hs <;> cases hs
    exact h.setIndex _ _
  case loadIndex lsn =>
    split at hs <;> cases hs
    exact h.setIndex _ _
  case search =>
    split at hs
    · next v hread =>
      rw [hread] at hreader
      split at hs
      · next hfuture =>
        split at hs <;> cases hs
        · next f hf =>
          exact h.setReader (r := .found f s.replayed)
            (h.done_of_firstFrom hreader hok hfuture hf)
        · exact h
      · cases hs
    · cases hs
  case load =>
    split at hs <;> cases hs
    next f replayed hfound =>
      rw [hfound] at hreader
      exact h.setReader (r := .restored _ replayed)
        ⟨f.image, hreader.1.2, h.image f hreader.1.1, hreader.2⟩
  case leave =>
    cases hs
    exact h.setReader (r := .idle) trivial

end Inv

/-- What a replica can restore: when it has read a version beyond its replay position, there is a
record that it has not replayed; the first one, in a logindex without a gap, has an image that is in
the full-page file, is not beyond the replay position and holds every change up to its LSN, so that
replay from it gives the page at the replay position. So it is for what has been restored. -/
structure Usable (page : Page α κ) (s : State α κ) : Prop where
  logged : ∀ v, s.reader = .read v → s.replayed < v.lsn → ∃ f ∈ s.records, s.replayed ≤ f.lsn
  found : ∀ v f, s.reader = .read v → s.replayed < v.lsn → s.Complete →
    s.firstFrom s.replayed = some f → s.slots f.fullpageNo = some f.image ∧
      f.image.lsn ≤ s.replayed ∧ f.image.content = page.contentAt s.history f.image.lsn ∧
      page.replayTo s.history f.image s.replayed = page.contentAt s.history s.replayed
  restored : ∀ image replayed, s.reader = .restored image replayed → ∃ v, image = some v ∧
    v.lsn ≤ replayed ∧ v.content = page.contentAt s.history v.lsn ∧
      page.replayTo s.history v replayed = page.contentAt s.history replayed

theorem Usable.of_inv (h : Inv page s) : Usable page s where
  logged v hread hfuture := by
    have hreader := h.reader
    rw [hread] at hreader
    obtain ⟨g, hg, hlt⟩ := Inv.exists_done hreader hfuture
    exact ⟨g, hg.1, hlt.le⟩
  found v f hread hfuture hcomplete hf := by
    have hreader := h.reader
    rw [hread] at hreader
    obtain ⟨hdone, hle⟩ := h.done_of_firstFrom hreader hcomplete hfuture hf
    have hwhole := h.image f hdone.1
    exact ⟨hdone.2, hle, hwhole.content, hwhole.replayTo h.sorted hle⟩
  restored image replayed hrestored := by
    have hreader := h.reader
    rw [hrestored] at hreader
    obtain ⟨v, himage, hwhole, hle⟩ := hreader
    exact ⟨v, himage, hle, hwhole.content, hwhole.replayTo h.sorted hle⟩

/-- In every run in which flushes and snapshots use what the replica has replayed, and searches
find a logindex without a gap. -/
theorem snapshot_usable (page : Page α κ) (s : State α κ)
    (run : Reaches (State.step page) Applied (State.init page) s) : Usable page s :=
  .of_inv (run.invariant (Inv page) .init fun _ _ _ h hok hs => h.step hok hs)

instance (s : State α κ) : (op : Op α κ) → Decidable (FlushApplied s op)
  | .flush oldestApplyLsn | .flushCopy oldestApplyLsn =>
    inferInstanceAs (Decidable (oldestApplyLsn ≤ s.replayed))
  | .change _ _ | .log _ | .copy | .logFullpage _ _ | .writeFullpage | .writePage | .logOther _
  | .writeOther _ _ | .replay _ | .read | .index | .drop | .loadIndex _ | .search | .load
  | .leave => .isTrue trivial

instance (s : State α κ) : (op : Op α κ) → Decidable (Applied s op)
  | .logFullpage oldestApplyLsn _ => inferInstanceAs (Decidable
      (∀ c ∈ s.copyBuffer, c.lsn ≤ oldestApplyLsn → c.lsn ≤ s.replayed))
  | .search => inferInstanceAs (Decidable s.Complete)
  | .flush oldestApplyLsn | .flushCopy oldestApplyLsn =>
    inferInstanceAs (Decidable (oldestApplyLsn ≤ s.replayed))
  | .change _ _ | .log _ | .copy | .writeFullpage | .writePage | .logOther _ | .writeOther _ _
  | .replay _ | .read | .index | .drop | .loadIndex _ | .load | .leave => .isTrue trivial

/-- A page whose content is the list of its changes. -/
def changesPage : Page (List Nat) Nat where
  redo := fun c a => a ++ [c]
  base := ⟨10, []⟩
  insert := 10
  replayed := 10
  base_le := le_rfl
  replayed_le := le_rfl

/-- The page is changed, and written when the replica has replayed up to the position. -/
def futureFlush (c oldestApplyLsn : Nat) : List (Op (List Nat) Nat) :=
  [.change 10 c, .logFullpage oldestApplyLsn 5, .writeFullpage, .writePage]

/-- The image of the third record is a version that was beyond the replay position when it was
written; the replica has replayed the second record, which is missing in its logindex. -/
theorem snapshot_usable_thrice : ∃ s : State (List Nat) Nat,
    Reaches (State.step changesPage) Applied (State.init changesPage) s ∧ Usable changesPage s ∧
      s.storage.lsn = 50 ∧ s.reader = .restored (some ⟨35, [1, 2]⟩) 40 := by
  obtain ⟨s, run, hview⟩ := exists_reaches_tested (State.step changesPage) Applied
    (State.init changesPage) (futureFlush 1 10 ++ futureFlush 2 10 ++ futureFlush 3 10 ++
      [.index, .drop, .index, .replay 40, .read, .search, .load])
    (fun s => s.storage.lsn = 50 ∧ s.reader = .restored (some ⟨35, [1, 2]⟩) 40) (by decide +kernel)
  exact ⟨s, run, snapshot_usable _ s run, hview⟩

/-- A restored version beyond the replay position is not usable. -/
theorem Usable.not_of_lt {replayed : Nat} (hrestored : s.reader = .restored (some v) replayed)
    (hlt : replayed < v.lsn) : ¬ Usable page s := by
  intro h
  obtain ⟨w, hw, hle, -⟩ := h.restored _ _ hrestored
  cases hw
  exact Nat.not_le_of_lt hlt hle

/-- A run after which the replica restores the version of its first change, which it has not
replayed. -/
theorem exists_restored_unreplayed {r : List (Op (List Nat) Nat)} {complete : Bool}
    (hview : ((exec (fun s op => if FlushApplied s op then s.step changesPage op else none)
      (State.init changesPage) (r ++ [.read, .search, .load])).any fun s =>
        s.reader = .restored (some ⟨20, [1]⟩) 10 ∧ decide s.Complete = complete) = true) :
    ∃ s : State (List Nat) Nat,
      Reaches (State.step changesPage) FlushApplied (State.init changesPage) s ∧
        s.reader = .restored (some ⟨20, [1]⟩) 10 ∧ decide s.Complete = complete ∧
        ¬ Usable changesPage s := by
  obtain ⟨s, run, hreader, hcomplete⟩ := exists_reaches_tested _ _ _ _ _ hview
  exact ⟨s, run, hreader, hcomplete, Usable.not_of_lt hreader (by decide)⟩

/-- A replica restores a version beyond its replay position when the record before was dropped from
its queue, and also, with every record in its logindex, when a copy buffer that it has not replayed
was taken as the old version. -/
theorem snapshot_not_usable :
    (∃ s : State (List Nat) Nat,
      Reaches (State.step changesPage) FlushApplied (State.init changesPage) s ∧
        s.reader = .restored (some ⟨20, [1]⟩) 10 ∧ decide s.Complete = false ∧
        ¬ Usable changesPage s) ∧
    ∃ s : State (List Nat) Nat,
      Reaches (State.step changesPage) FlushApplied (State.init changesPage) s ∧
        s.reader = .restored (some ⟨20, [1]⟩) 10 ∧ decide s.Complete = true ∧
        ¬ Usable changesPage s := by
  constructor
  · exact exists_restored_unreplayed (r := futureFlush 1 10 ++ futureFlush 2 10 ++
      [.drop, .index]) (by decide +kernel)
  · exact exists_restored_unreplayed (r := [.change 10 1, .copy] ++ futureFlush 2 20 ++
      [.index]) (by decide +kernel)

end Polar.FullPage
