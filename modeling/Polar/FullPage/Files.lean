import Polar.FullPage.Numbers

/-!
# Live images are not overwritten

Since the last restart the numbers increase with the LSN, and as long as no record from before it is
kept, a slot belongs to one record that is kept. A segment that is removed or renamed is below the
segments of all of them.
-/

namespace Polar.FullPage.Numbers

open State (pc)

open List Function Option

variable {α : Type*} {n : Nat} {par : Params} {s t : State α n}

namespace Pc

/-- The record that the process has inserted. -/
def record : Pc α → Option (Nat × Nat × α)
  | inserted lsn no image | logged lsn no image | creating lsn no image | opened lsn no image =>
    some (lsn, no, image)
  | idle | begun _ _ => none

/-- The process has the file lock. -/
def locks : Pc α → Bool
  | begun _ _ | inserted _ _ _ => true
  | _ => false

end Pc

/-- The numbers of the records since the last restart. -/
structure Counted (s : State α n) : Prop where
  lsn_lt : ∀ r ∈ s.records, r.lsn < s.insert
  lsn_inj : ∀ r ∈ s.records, ∀ r' ∈ s.records, r.lsn = r'.lsn → r = r'
  ordered : ∀ r ∈ s.records, ∀ r' ∈ s.records, s.restarted ≤ r.lsn → r.lsn < r'.lsn →
    r.fullpageNo < r'.fullpageNo
  no_lt : ∀ r ∈ s.records, s.restarted ≤ r.lsn → r.fullpageNo < s.maxFullpageNo
  restarted_le : s.restarted ≤ s.insert
  /-- Once a number is taken, no record from before the restart is kept. -/
  fresh : ((∃ p, ∃ image no, s.pc p = .begun no image) ∨ ∃ r ∈ s.records, s.restarted ≤ r.lsn) →
    ∀ r ∈ s.records, s.kept ≤ r.lsn → s.restarted ≤ r.lsn
  live : ∀ r ∈ s.records, ∀ r' ∈ s.records, s.kept ≤ r.lsn → r.lsn < r'.lsn →
    r.fullpageNo < r'.fullpageNo

/-- What each process has done. -/
structure Working (par : Params) (s : State α n) : Prop where
  locked : ∀ p, (s.pc p).locks = true → s.lock = some p
  begun : ∀ p no image, s.pc p = .begun no image → no < s.maxFullpageNo ∧
    ∀ r ∈ s.records, s.restarted ≤ r.lsn → r.fullpageNo < no
  record : ∀ p lsn no image, (s.pc p).record = some (lsn, no, image) → s.restarted ≤ lsn ∧
    ∃ r ∈ s.records, r.lsn = lsn ∧ r.fullpageNo = no ∧ r.image = image
  opened : ∀ p lsn no image f, s.pc p = .opened lsn no image → (s.procs p).openFullpage = some f →
    f.1 = par.segNo no

/-- The files of the images that are kept. -/
structure Filed (par : Params) (s : State α n) : Prop where
  names_inj : ∀ a b i, s.names a = some i → s.names b = some i → a = b
  names_lt : ∀ a i, s.names a = some i → i < s.made
  slot : ∀ r ∈ s.records, s.kept ≤ r.lsn → r.written = true →
    ∃ i, s.names (par.segNo r.fullpageNo) = some i ∧
      s.files i (par.offset r.fullpageNo) = some r.image
  sweep : ∀ k, s.sweep = some k → (∃ r ∈ s.records, r.lsn = s.kept) ∧
    ∀ r ∈ s.records, s.kept ≤ r.lsn → k ≤ par.segNo r.fullpageNo

/-- What every run keeps of the numbers and the files. -/
structure Inv (par : Params) (s : State α n) : Prop where
  counted : Counted s
  working : Working par s
  filed : Filed par s

namespace State

theorem pc_setProc_self (p : Fin n) (pr : Proc α) : (s.setProc p pr).pc p = pr.pc := by
  simp [pc, setProc]

theorem procs_setProc_self (p : Fin n) (pr : Proc α) : (s.setProc p pr).procs p = pr := by
  simp [setProc]

theorem procs_setProc_of_ne {p q : Fin n} (h : q ≠ p) (pr : Proc α) :
    (s.setProc p pr).procs q = s.procs q :=
  update_of_ne h _ _

theorem pc_setProc_of_ne {p q : Fin n} (h : q ≠ p) (pr : Proc α) :
    (s.setProc p pr).pc q = s.pc q := by
  rw [pc, procs_setProc_of_ne h, pc]

theorem names_firstFree {seg max j : Nat} (h : s.firstFree seg max = some j) :
    s.names j = none ∧ seg ≤ j := by
  obtain ⟨hnone, -⟩ := List.find?_eq_some_iff_append.mp h
  have hmem := mem_of_find?_eq_some h
  obtain ⟨i, -, rfl⟩ := mem_map.mp hmem
  exact ⟨isNone_iff_eq_none.mp hnone, Nat.le_add_right _ _⟩

theorem mem_markWritten {lsn : Nat} {r : Fpsi α} (h : r ∈ (s.markWritten lsn).records) :
    ∃ r' ∈ s.records, r'.lsn = r.lsn ∧ r'.fullpageNo = r.fullpageNo ∧ r'.image = r.image ∧
      (r.written = true → r'.lsn = lsn ∨ r'.written = true) := by
  obtain ⟨r', hr', rfl⟩ := mem_map.mp h
  refine ⟨r', hr', ?_⟩
  split
  · next heq => exact ⟨rfl, rfl, rfl, fun _ => .inl heq⟩
  · exact ⟨rfl, rfl, rfl, .inr⟩

end State

namespace Working

/-- A process goes on, and nothing else changes for the others. -/
theorem setProc (h : Working par s) (p : Fin n) (pr : Proc α)
    (hprocs : t.procs = (s.setProc p pr).procs) (hrestarted : t.restarted = s.restarted)
    (hmax : s.maxFullpageNo ≤ t.maxFullpageNo)
    (hsub : ∀ r ∈ s.records, ∃ r' ∈ t.records, r'.lsn = r.lsn ∧ r'.fullpageNo = r.fullpageNo ∧
      r'.image = r.image)
    (hnew : ∀ q no image, q ≠ p → s.pc q = .begun no image → ∀ r ∈ t.records,
      s.restarted ≤ r.lsn → r.fullpageNo < no)
    (hlock : ∀ q, q ≠ p → (s.pc q).locks = true → t.lock = some q)
    (hplock : pr.pc.locks = true → t.lock = some p)
    (hpbegun : ∀ no image, pr.pc = .begun no image → no < t.maxFullpageNo ∧
      ∀ r ∈ t.records, s.restarted ≤ r.lsn → r.fullpageNo < no)
    (hprecord : ∀ lsn no image, pr.pc.record = some (lsn, no, image) → s.restarted ≤ lsn ∧
      ∃ r ∈ t.records, r.lsn = lsn ∧ r.fullpageNo = no ∧ r.image = image)
    (hpopened : ∀ lsn no image f, pr.pc = .opened lsn no image → pr.openFullpage = some f →
      f.1 = par.segNo no) : Working par t := by
  have hself : t.procs p = pr := by rw [hprocs, State.procs_setProc_self]
  have hne {q : Fin n} (hq : q ≠ p) : t.procs q = s.procs q := by
    rw [hprocs, State.procs_setProc_of_ne hq]
  have hpcself : t.pc p = pr.pc := by rw [pc, hself]
  have hpcne {q : Fin n} (hq : q ≠ p) : t.pc q = s.pc q := by rw [pc, hne hq, pc]
  constructor
  · intro q hq
    by_cases hqp : q = p
    · subst hqp
      exact hplock (hpcself ▸ hq)
    · exact hlock q hqp (hpcne hqp ▸ hq)
  · intro q no image hq
    rw [hrestarted]
    by_cases hqp : q = p
    · subst hqp
      exact hpbegun no image (hpcself ▸ hq)
    · rw [hpcne hqp] at hq
      exact ⟨(h.begun q no image hq).1.trans_le hmax, hnew q no image hqp hq⟩
  · intro q lsn no image hq
    rw [hrestarted]
    by_cases hqp : q = p
    · subst hqp
      exact hprecord lsn no image (hpcself ▸ hq)
    · rw [hpcne hqp] at hq
      obtain ⟨hle, r, hr, rfl, rfl, rfl⟩ := h.record q lsn no image hq
      exact ⟨hle, hsub r hr⟩
  · intro q lsn no image f hq hf
    by_cases hqp : q = p
    · subst hqp
      exact hpopened lsn no image f (hpcself ▸ hq) (hself ▸ hf)
    · exact h.opened q lsn no image f (hpcne hqp ▸ hq) (hne hqp ▸ hf)

end Working

namespace Counted

/-- The records stay, and no process takes a number. -/
theorem keep (h : Counted s) (hrecords : t.records = s.records) (hinsert : s.insert ≤ t.insert)
    (hmax : t.maxFullpageNo = s.maxFullpageNo) (hkept : s.kept ≤ t.kept)
    (hrestarted : t.restarted = s.restarted)
    (hpc : ∀ p no image, t.pc p = .begun no image → s.pc p = .begun no image) : Counted t := by
  constructor
  · intro r hr
    exact (h.lsn_lt r (hrecords ▸ hr)).trans_le hinsert
  · rw [hrecords]
    exact h.lsn_inj
  · rw [hrecords, hrestarted]
    exact h.ordered
  · rw [hrecords, hrestarted, hmax]
    exact h.no_lt
  · rw [hrestarted]
    exact h.restarted_le.trans hinsert
  · rw [hrecords, hrestarted]
    intro hor r hr hle
    refine h.fresh (hor.imp (fun ⟨p, image, no, hp⟩ => ?_) id) r hr (hkept.trans hle)
    exact ⟨p, image, no, hpc p no image hp⟩
  · rw [hrecords]
    exact fun r hr r' hr' hle => h.live r hr r' hr' (hkept.trans hle)

theorem markWritten (h : Counted s) (lsn : Nat) : Counted (s.markWritten lsn) := by
  have hmem {r : Fpsi α} (hr : r ∈ (s.markWritten lsn).records) := State.mem_markWritten hr
  constructor
  · intro r hr
    obtain ⟨a, ha, hlsn, -⟩ := hmem hr
    exact hlsn ▸ h.lsn_lt a ha
  · intro r hr r' hr' heq
    obtain ⟨a, ha, rfl⟩ := mem_map.mp hr
    obtain ⟨b, hb, rfl⟩ := mem_map.mp hr'
    have hab : a.lsn = b.lsn := by
      split at heq <;> split at heq <;> exact heq
    rw [h.lsn_inj a ha b hb hab]
  · intro r hr r' hr' hle hlt
    obtain ⟨a, ha, hlsn, hno, -⟩ := hmem hr
    obtain ⟨b, hb, hlsn', hno', -⟩ := hmem hr'
    rw [← hno, ← hno']
    rw [← hlsn] at hle hlt
    rw [← hlsn'] at hlt
    exact h.ordered a ha b hb hle hlt
  · intro r hr hle
    obtain ⟨a, ha, hlsn, hno, -⟩ := hmem hr
    rw [← hno]
    exact h.no_lt a ha (hlsn ▸ hle)
  · exact h.restarted_le
  · intro hor r hr hle
    obtain ⟨a, ha, hlsn, -⟩ := hmem hr
    rw [← hlsn] at hle ⊢
    refine h.fresh (hor.imp id fun ⟨b, hb, hble⟩ => ?_) a ha hle
    obtain ⟨c, hc, hclsn, -⟩ := hmem hb
    exact ⟨c, hc, hclsn ▸ hble⟩
  · intro r hr r' hr' hle hlt
    obtain ⟨a, ha, hlsn, hno, -⟩ := hmem hr
    obtain ⟨b, hb, hlsn', hno', -⟩ := hmem hr'
    rw [← hno, ← hno']
    rw [← hlsn] at hle hlt
    rw [← hlsn'] at hlt
    exact h.live a ha b hb hle hlt

theorem begin (h : Counted s) {p : Fin n} {image : α}
    (hok : ∀ r ∈ s.records, s.kept ≤ r.lsn → s.restarted ≤ r.lsn) :
    Counted { s.goto p (.begun s.maxFullpageNo image) with
      lock := some p, maxFullpageNo := s.maxFullpageNo + 1 } where
  lsn_lt := h.lsn_lt
  lsn_inj := h.lsn_inj
  ordered := h.ordered
  no_lt r hr hle := (h.no_lt r hr hle).trans (Nat.lt_succ_self _)
  restarted_le := h.restarted_le
  fresh _ := hok
  live := h.live

/-- The record of an image is logged. -/
theorem insert (h : Counted s) (hw : Working par s) {p : Fin n} {no len : Nat} {image : α}
    (hpc : s.pc p = .begun no image) (hlen : 0 < len) :
    Counted { s.goto p (.inserted s.insert no image) with
      records := s.records ++ [⟨s.insert, no, image, false⟩]
      insert := s.insert + len } := by
  obtain ⟨hno, hless⟩ := hw.begun p no image hpc
  have hfresh := h.fresh (.inl ⟨p, image, no, hpc⟩)
  have hcases {r : Fpsi α} (hr : r ∈ s.records ++ [⟨s.insert, no, image, false⟩]) :
      r ∈ s.records ∨ r = ⟨s.insert, no, image, false⟩ := by
    simpa using hr
  constructor
  · intro r hr
    rcases hcases hr with hr | rfl
    · exact (h.lsn_lt r hr).trans_le (Nat.le_add_right _ _)
    · exact Nat.lt_add_of_pos_right hlen
  · intro r hr r' hr' heq
    rcases hcases hr with hr | rfl <;> rcases hcases hr' with hr' | rfl
    · exact h.lsn_inj r hr r' hr' heq
    · exact absurd heq (ne_of_lt (h.lsn_lt r hr))
    · exact absurd heq.symm (ne_of_lt (h.lsn_lt r' hr'))
    · rfl
  · intro r hr r' hr' hle hlt
    rcases hcases hr with hr | rfl <;> rcases hcases hr' with hr' | rfl
    · exact h.ordered r hr r' hr' hle hlt
    · exact hless r hr hle
    · exact absurd hlt (Nat.not_lt_of_lt (h.lsn_lt r' hr'))
    · exact absurd hlt (lt_irrefl _)
  · intro r hr hle
    rcases hcases hr with hr | rfl
    · exact h.no_lt r hr hle
    · exact hno
  · exact h.restarted_le.trans (Nat.le_add_right _ _)
  · intro _ r hr hle
    rcases hcases hr with hr | rfl
    · exact hfresh r hr hle
    · exact h.restarted_le
  · intro r hr r' hr' hle hlt
    rcases hcases hr with hr | rfl <;> rcases hcases hr' with hr' | rfl
    · exact h.live r hr r' hr' hle hlt
    · exact hless r hr (hfresh r hr hle)
    · exact absurd hlt (Nat.not_lt_of_lt (h.lsn_lt r' hr'))
    · exact absurd hlt (lt_irrefl _)

/-- The records that are flushed are left. -/
theorem restart (h : Counted s) {stays : Fin n → Bool} {flushed redo : Nat} {walExists : Bool}
    (hs : s.step par (.restart stays flushed redo walExists) = some t) :
    Counted t := by
  simp only [State.step] at hs
  split at hs <;> cases hs
  have hmem {r : Fpsi α} (hr : r ∈ s.records.filter fun r => r.lsn < flushed) :
      r ∈ s.records ∧ r.lsn < flushed := by
    simpa using mem_filter.mp hr
  have hold {r : Fpsi α} (hr : r ∈ s.records.filter fun r => r.lsn < flushed) : ¬ flushed ≤ r.lsn :=
    Nat.not_le_of_lt (hmem hr).2
  constructor
  · exact fun r hr => (hmem hr).2
  · exact fun r hr r' hr' => h.lsn_inj r (hmem hr).1 r' (hmem hr').1
  · exact fun r hr _ _ hle => absurd hle (hold hr)
  · exact fun r hr hle => absurd hle (hold hr)
  · exact le_rfl
  · rintro (⟨p, image, no, hp⟩ | ⟨r, hr, hle⟩)
    · simp [pc] at hp
    · exact absurd hle (hold hr)
  · exact fun r hr r' hr' => h.live r (hmem hr).1 r' (hmem hr').1

end Counted

namespace Filed

theorem keep (h : Filed par s) (hrecords : t.records = s.records) (hnames : t.names = s.names)
    (hfiles : t.files = s.files) (hmade : s.made ≤ t.made) (hkept : t.kept = s.kept)
    (hsweep : t.sweep = s.sweep) : Filed par t := by
  constructor
  · rw [hnames]
    exact h.names_inj
  · rw [hnames]
    exact fun a i ha => (h.names_lt a i ha).trans_le hmade
  · rw [hrecords, hnames, hfiles, hkept]
    exact h.slot
  · rw [hrecords, hsweep, hkept]
    exact h.sweep

theorem installNew (h : Filed par s) (seg : Nat) : Filed par (s.installNew par seg) := by
  unfold State.installNew
  split
  · next j hj =>
    have hnone := (State.names_firstFree hj).1
    have hnames {a i : Nat} (ha : update s.names j (some s.made) a = some i) :
        (a = j ∧ i = s.made) ∨ (a ≠ j ∧ s.names a = some i) := by
      by_cases haj : a = j
      · subst haj
        rw [update_self] at ha
        exact .inl ⟨rfl, (some.inj ha).symm⟩
      · rw [update_of_ne haj] at ha
        exact .inr ⟨haj, ha⟩
    constructor
    · intro a b i ha hb
      rcases hnames ha with ⟨haj, hi⟩ | ⟨-, ha'⟩ <;> rcases hnames hb with ⟨hbj, hi'⟩ | ⟨-, hb'⟩
      · rw [haj, hbj]
      · exact absurd (hi ▸ h.names_lt b i hb') (lt_irrefl _)
      · exact absurd (hi' ▸ h.names_lt a i ha') (lt_irrefl _)
      · exact h.names_inj a b i ha' hb'
    · intro a i ha
      rcases hnames ha with ⟨-, rfl⟩ | ⟨-, ha⟩
      · exact Nat.lt_succ_self _
      · exact (h.names_lt a i ha).trans (Nat.lt_succ_self _)
    · intro r hr hle hwritten
      obtain ⟨i, hi, hslot⟩ := h.slot r hr hle hwritten
      refine ⟨i, ?_, hslot⟩
      have hne : par.segNo r.fullpageNo ≠ j := by
        rintro rfl
        rw [hnone] at hi
        cases hi
      exact (update_of_ne hne _ _).trans hi
    · exact h.sweep
  · exact h.keep rfl rfl rfl (Nat.le_succ _) rfl rfl

/-- The name of a segment below those of the kept records is taken away, and its file may get a name
that is free. -/
theorem remove (h : Filed par s) {k i : Nat} {names : Nat → Option Nat}
    (hsweep : s.sweep = some (k + 1)) (hk : s.names k = some i)
    (hnames : ∀ a b, names a = some b → (a ≠ k ∧ s.names a = some b) ∨
      (s.names a = none ∧ b = i ∧ ∀ c, names c = some i → c = a))
    (hkeep : ∀ a b, a ≠ k → s.names a = some b → names a = some b) :
    Filed par { s with names, sweep := some k } := by
  obtain ⟨hlive, habove⟩ := h.sweep _ hsweep
  constructor
  · intro a b j ha hb
    rcases hnames a j ha with ⟨-, ha'⟩ | ⟨-, rfl, honly⟩
    · rcases hnames b j hb with ⟨-, hb'⟩ | ⟨-, rfl, honly⟩
      · exact h.names_inj a b j ha' hb'
      · exact honly a ha
    · exact (honly b hb).symm
  · intro a b ha
    rcases hnames a b ha with ⟨-, ha'⟩ | ⟨-, rfl, -⟩
    · exact h.names_lt a b ha'
    · exact h.names_lt k b hk
  · intro r hr hle hwritten
    obtain ⟨j, hj, hslot⟩ := h.slot r hr hle hwritten
    have hne : par.segNo r.fullpageNo ≠ k := Nat.ne_of_gt (habove r hr hle)
    exact ⟨j, hkeep _ j hne hj, hslot⟩
  · rintro k' hk'
    cases hk'
    exact ⟨hlive, fun r hr hle => (Nat.le_succ k).trans (habove r hr hle)⟩

end Filed

namespace Inv

theorem init : Inv par (State.init n : State α n) where
  counted := by constructor <;> simp [State.init]
  working := by constructor <;> simp [State.init, pc, Pc.locks, Pc.record]
  filed := by constructor <;> simp [State.init]

section

variable (h : Inv par s)
include h

/-- A process goes on with a number that it has, and the files stay. -/
theorem goto (p : Fin n) (pr : Proc α) (hbegun : ∀ no image, pr.pc ≠ .begun no image)
    (hlocks : pr.pc.locks = false) (hrecord : pr.pc.record = none ∨ pr.pc.record = (s.pc p).record)
    (hopened : ∀ lsn no image f, pr.pc = .opened lsn no image → pr.openFullpage = some f →
      f.1 = par.segNo no) : Inv par (s.setProc p pr) where
  counted := by
    refine h.counted.keep rfl le_rfl rfl le_rfl rfl fun q no image hq => ?_
    by_cases hqp : q = p
    · subst hqp
      rw [State.pc_setProc_self] at hq
      exact absurd hq (hbegun no image)
    · rwa [State.pc_setProc_of_ne hqp] at hq
  working := by
    refine h.working.setProc p pr rfl rfl le_rfl (fun r hr => ⟨r, hr, rfl, rfl, rfl⟩) ?_ ?_ ?_ ?_ ?_
      hopened
    · exact fun q no image _ hq => (h.working.begun q no image hq).2
    · exact fun q _ hq => h.working.locked q hq
    · simp [hlocks]
    · exact fun no image hpc => absurd hpc (hbegun no image)
    · intro lsn no image hrec
      rcases hrecord with hnone | hsame
      · rw [hnone] at hrec
        cases hrec
      · exact h.working.record p lsn no image (hsame ▸ hrec)
  filed := h.filed.keep rfl rfl rfl le_rfl rfl rfl

variable {p : Fin n} {image : α}

theorem begin (hlock : s.lock = none)
    (hok : ∀ r ∈ s.records, s.kept ≤ r.lsn → s.restarted ≤ r.lsn) :
    Inv par { s.goto p (.begun s.maxFullpageNo image) with
      lock := some p, maxFullpageNo := s.maxFullpageNo + 1 } where
  counted := h.counted.begin hok
  working := by
    have hfree : ∀ q, (s.pc q).locks = true → False := by
      intro q hq
      have := h.working.locked q hq
      rw [hlock] at this
      cases this
    refine h.working.setProc p { s.procs p with pc := .begun s.maxFullpageNo image } rfl rfl
      (Nat.le_succ _) (fun r hr => ⟨r, hr, rfl, rfl, rfl⟩) ?_ ?_ (fun _ => rfl) ?_ ?_ ?_
    · exact fun q no image' _ hq => (h.working.begun q no image' hq).2
    · exact fun q _ hq => (hfree q hq).elim
    · rintro no image' ⟨⟩
      exact ⟨Nat.lt_succ_self _, h.counted.no_lt⟩
    · simp [Pc.record]
    · simp
  filed := h.filed.keep rfl rfl rfl le_rfl rfl rfl

theorem insert {no len : Nat} (hpc : s.pc p = .begun no image) (hlen : 0 < len) :
    Inv par { s.goto p (.inserted s.insert no image) with
      records := s.records ++ [⟨s.insert, no, image, false⟩]
      insert := s.insert + len } where
  counted := h.counted.insert h.working hpc hlen
  working := by
    have hlock : s.lock = some p := h.working.locked p (by rw [hpc]; rfl)
    refine h.working.setProc p { s.procs p with pc := .inserted s.insert no image } rfl rfl le_rfl
      (fun r hr => ⟨r, mem_append_left _ hr, rfl, rfl, rfl⟩) ?_ ?_ (fun _ => hlock) ?_ ?_ ?_
    · -- No other process has a number that is not logged.
      intro q no' image' hqp hq
      have hq' : s.lock = some q := h.working.locked q (by rw [hq]; rfl)
      exact absurd (some.inj (hq'.symm.trans hlock)) hqp
    · exact fun q _ hq => h.working.locked q hq
    · simp
    · rintro lsn no' image' ⟨⟩
      exact ⟨h.counted.restarted_le, _, mem_append_right _ (mem_singleton.mpr rfl), rfl, rfl,
        rfl⟩
    · simp
  filed := by
    have hfresh := h.counted.fresh (.inl ⟨p, image, no, hpc⟩)
    refine ⟨h.filed.names_inj, h.filed.names_lt, ?_, ?_⟩
    · exact forall_mem_append.mpr ⟨h.filed.slot, forall_mem_singleton.mpr (by simp)⟩
    · intro k hk
      obtain ⟨⟨a, ha, halsn⟩, habove⟩ := h.filed.sweep k hk
      refine ⟨⟨a, mem_append_left _ ha, halsn⟩, fun r hr hle => ?_⟩
      rcases mem_append.mp hr with hr | hr
      · exact habove r hr hle
      · -- The number is beyond that of the first record that is kept.
        rw [mem_singleton.mp hr]
        have hlt := (h.working.begun p no image hpc).2 a ha (hfresh a ha halsn.ge)
        exact (habove a ha halsn.ge).trans (Nat.div_le_div_right hlt.le)

theorem release {lsn no : Nat} (hpc : s.pc p = .inserted lsn no image) :
    Inv par { s.goto p (.logged lsn no image) with lock := none } where
  counted := by
    refine h.counted.keep rfl le_rfl rfl le_rfl rfl fun q no' image' hq => ?_
    by_cases hqp : q = p
    · subst hqp
      simp [pc, State.goto, State.setProc] at hq
    · simpa [pc, State.goto, State.setProc, hqp] using hq
  working := by
    have hlock : s.lock = some p := h.working.locked p (by rw [hpc]; rfl)
    refine h.working.setProc p { s.procs p with pc := .logged lsn no image } rfl rfl le_rfl
      (fun r hr => ⟨r, hr, rfl, rfl, rfl⟩) ?_ ?_ ?_ ?_ ?_ ?_
    · exact fun q no' image' _ hq => (h.working.begun q no' image' hq).2
    · intro q hqp hq
      exact absurd (some.inj ((h.working.locked q hq).symm.trans hlock)) hqp
    · simp [Pc.locks]
    · simp
    · intro lsn' no' image' hrec
      exact h.working.record p lsn' no' image' (by rw [hpc]; exact hrec)
    · simp
  filed := h.filed.keep rfl rfl rfl le_rfl rfl rfl

theorem openFile (hs : s.step par (.openFile p) = some t) : Inv par t := by
  simp only [State.step] at hs
  split at hs
  · next lsn no image hpc =>
    have hrecord : (s.pc p).record = some (lsn, no, image) := by rw [hpc]; rfl
    split at hs
    · next hany =>
      cases hs
      refine h.goto p _ (by simp) rfl (.inr hrecord.symm) ?_
      rintro lsn' no' image' f hopened hf
      cases hopened
      have hopen : (s.procs p).openFullpage = some f := hf
      rw [hopen] at hany
      simpa using hany
    · split at hs <;> cases hs
      · refine h.goto p _ (by simp) rfl (.inr hrecord.symm) ?_
        rintro lsn' no' image' f hopened hf
        cases hopened
        cases hf
        rfl
      · exact h.goto p _ (by simp) rfl (.inr hrecord.symm) (by simp)
  · cases hs

theorem installNew (seg : Nat) : Inv par (s.installNew par seg) where
  counted := by
    refine h.counted.keep ?_ ?_ ?_ ?_ ?_ ?_ <;> unfold State.installNew <;> split <;> simp [pc]
  working := by
    unfold State.installNew
    split <;> exact { h.working with }
  filed := h.filed.installNew seg

theorem create (hs : s.step par (.create p) = some t) : Inv par t := by
  simp only [State.step] at hs
  split at hs
  · next lsn no image hpc hlock =>
    obtain ⟨i, -, rfl⟩ := map_eq_some_iff.mp hs
    have hnew := h.installNew (par.segNo no)
    have hpc' : (s.installNew par (par.segNo no)).pc p = s.pc p := by
      unfold State.installNew
      split <;> rfl
    refine hnew.goto p _ (by simp) rfl (.inr (by rw [hpc', hpc]; rfl)) ?_
    rintro lsn' no' image' f hopened hf
    cases hopened
    cases hf
    rfl
  · cases hs

end

/-- A slot and the number that it belongs to. -/
theorem eq_of_segNo_eq {no no' : Nat} (hseg : par.segNo no = par.segNo no')
    (hoffset : par.offset no = par.offset no') : no = no' := by
  rw [← Nat.div_add_mod no par.numPerFile, ← Nat.div_add_mod no' par.numPerFile]
  unfold Params.segNo Params.offset at *
  rw [hseg, hoffset]

/-- An image is written to its file. -/
theorem write {p : Fin n} (h : Inv par s) (hok : Numbered s (.write p))
    (hs : s.step par (.write p) = some t) : Inv par t := by
  simp only [State.step] at hs
  split at hs
  · next lsn no image seg i hpc hopen =>
    cases hs
    have hname : s.names seg = some i := hok _ hopen
    have hseg : seg = par.segNo no := h.working.opened p lsn no image _ hpc hopen
    obtain ⟨hle, a, ha, halsn, hano, haimage⟩ := h.working.record p lsn no image (by rw [hpc]; rfl)
    have hidle := h.goto p { s.procs p with pc := .idle } (by simp) rfl (.inl rfl) (by simp)
    refine ⟨{ hidle.counted.markWritten lsn with }, ?_, ?_⟩
    · refine h.working.setProc p { s.procs p with pc := .idle } rfl rfl le_rfl ?_ ?_ ?_ ?_ ?_ ?_ ?_
      · intro r hr
        refine ⟨_, mem_map.mpr ⟨r, hr, rfl⟩, ?_⟩
        split <;> exact ⟨rfl, rfl, rfl⟩
      · intro q no' image' _ hq r hr hrle
        obtain ⟨b, hb, hblsn, hbno, -⟩ := State.mem_markWritten hr
        rw [← hbno]
        exact (h.working.begun q no' image' hq).2 b hb (hblsn ▸ hrle)
      · exact fun q _ hq => h.working.locked q hq
      · simp [Pc.locks]
      · simp
      · simp [Pc.record]
      · simp
    · refine ⟨h.filed.names_inj, h.filed.names_lt, ?_, ?_⟩
      · intro r hr hkept hwritten
        obtain ⟨b, hb, hblsn, hbno, hbimage, hor⟩ := State.mem_markWritten hr
        rw [← hbno, ← hbimage]
        rw [← hblsn] at hkept
        by_cases hsame : b.lsn = lsn
        · -- The record of the process itself.
          obtain rfl : b = a := h.counted.lsn_inj b hb a ha (hsame.trans halsn.symm)
          refine ⟨i, ?_, ?_⟩
          · rwa [hano, ← hseg]
          · simp [hano, haimage]
        · obtain ⟨j, hj, hslot⟩ := h.filed.slot b hb hkept ((hor hwritten).resolve_left hsame)
          refine ⟨j, hj, ?_⟩
          by_cases hji : j = i
          · subst hji
            have hoffset : par.offset b.fullpageNo ≠ par.offset no := by
              intro hoffset
              have hsegs := (h.filed.names_inj _ _ _ hj hname).trans hseg
              have hno := eq_of_segNo_eq hsegs hoffset
              -- Two records of this number would be ordered.
              have hfresh := h.counted.fresh (.inr ⟨a, ha, halsn ▸ hle⟩) b hb hkept
              rcases Nat.lt_or_gt_of_ne (halsn ▸ hsame) with hlt | hgt
              · have := h.counted.ordered b hb a ha hfresh hlt
                omega
              · have := h.counted.ordered a ha b hb (halsn ▸ hle) hgt
                omega
            simp [hoffset, hslot]
          · simp [hji, hslot]
      · intro k hk
        obtain ⟨⟨b, hb, hblsn⟩, habove⟩ := h.filed.sweep k hk
        refine ⟨⟨_, mem_map.mpr ⟨b, hb, rfl⟩, ?_⟩, ?_⟩
        · split <;> exact hblsn
        · intro r hr hkept
          obtain ⟨c, hc, hclsn, hcno, -⟩ := State.mem_markWritten hr
          rw [← hcno]
          exact habove c hc (hclsn ▸ hkept)
  · cases hs

/-- The next old file is removed. -/
theorem removeNext (h : Inv par s) (hs : s.step par .removeNext = some t) : Inv par t := by
  have hstop : Inv par { s with sweep := none } :=
    ⟨{ h.counted with }, { h.working with }, { h.filed with sweep := by simp }⟩
  simp only [State.step] at hs
  split at hs
  · next k hsweep =>
    split at hs
    · cases hs
      exact hstop
    · next i hk =>
      have hunlink : Inv par { s with names := update s.names k none, sweep := some k } := by
        refine ⟨{ h.counted with }, { h.working with }, h.filed.remove hsweep hk ?_ ?_⟩
        · intro a b ha
          by_cases hak : a = k
          · subst hak
            simp at ha
          · rw [update_of_ne hak] at ha
            exact .inl ⟨hak, ha⟩
        · intro a b hak ha
          rwa [update_of_ne hak]
      split at hs
      · obtain ⟨-, hs⟩ := ite_none_right_eq_some.mp hs
        split at hs <;> cases hs
        · next j hj =>
          have hnone := (State.names_firstFree hj).1
          refine ⟨{ h.counted with }, { h.working with }, h.filed.remove hsweep hk ?_ ?_⟩
          · intro a b ha
            by_cases haj : a = j
            · subst haj
              rw [update_self] at ha
              refine .inr ⟨hnone, (some.inj ha).symm, fun c hc => ?_⟩
              by_contra hca
              rw [update_of_ne hca] at hc
              by_cases hck : c = k
              · subst hck
                simp at hc
              · rw [update_of_ne hck] at hc
                exact hck (h.filed.names_inj c k i hc hk)
            · rw [update_of_ne haj] at ha
              by_cases hak : a = k
              · subst hak
                simp at ha
              · rw [update_of_ne hak] at ha
                exact .inl ⟨hak, ha⟩
          · intro a b hak ha
            have haj : a ≠ j := by
              rintro rfl
              rw [hnone] at ha
              cases ha
            rwa [update_of_ne haj, update_of_ne hak]
        · exact hunlink
      · cases hs
        exact hunlink
  · cases hs
    exact hstop
  · cases hs

theorem restart {stays : Fin n → Bool} {flushed redo : Nat} {walExists : Bool} (h : Inv par s)
    (hs : s.step par (.restart stays flushed redo walExists) = some t) : Inv par t := by
  refine ⟨h.counted.restart hs, ?_, ?_⟩
  all_goals
    simp only [State.step] at hs
    split at hs <;> cases hs
  · constructor <;> simp [pc, Pc.locks, Pc.record]
  · refine ⟨h.filed.names_inj, h.filed.names_lt, ?_, by simp⟩
    exact fun r hr => h.filed.slot r (mem_filter.mp hr).1

theorem step {op : Op α n} (h : Inv par s) (hok : Numbered s op) (hs : s.step par op = some t) :
    Inv par t := by
  cases op <;> simp only [State.step] at hs
  case begin p image =>
    split at hs <;> cases hs
    next hlock => exact h.begin hlock hok
  case insert p len =>
    split at hs
    · next no image hpc =>
      split at hs <;> cases hs
      next hlen => exact h.insert hpc hlen
    · cases hs
  case release p =>
    split at hs <;> cases hs
    next lsn no image hpc => exact h.release hpc
  case openFile p => exact h.openFile hs
  case create p => exact h.create hs
  case write p => exact h.write hok hs
  case log len =>
    split at hs <;> cases hs
    exact ⟨h.counted.keep rfl (Nat.le_add_right _ _) rfl le_rfl rfl fun _ _ _ hq => hq,
      { h.working with }, { h.filed with }⟩
  case read p no =>
    split at hs
    · next hidle =>
      split at hs
      · cases hs
        exact h
      · split at hs <;> cases hs
        exact h.goto p _ (by simp) rfl (.inl rfl) (by simp)
    · cases hs
  case prealloc no =>
    split at hs <;> cases hs
    exact h.installNew _
  case truncate lsn =>
    split at hs <;> cases hs
    next hcond =>
      obtain ⟨hsweep, hle, -⟩ := hcond
      refine ⟨h.counted.keep rfl le_rfl rfl hle rfl fun _ _ _ hq => hq, { h.working with }, ?_⟩
      refine ⟨h.filed.names_inj, h.filed.names_lt, ?_, by simp [hsweep]⟩
      exact fun r hr hkept => h.filed.slot r hr (hle.trans hkept)
  case removeOldFiles =>
    split at hs <;> cases hs
    next r hsweep hr =>
      refine ⟨{ h.counted with }, { h.working with }, { h.filed with sweep := ?_ }⟩
      rintro k hk
      cases hk
      have hmem := mem_of_find?_eq_some hr
      have hlsn : r.lsn = s.kept := by simpa using List.find?_some hr
      refine ⟨⟨r, hmem, hlsn⟩, fun r' hr' hkept => ?_⟩
      -- The first record that is kept has the least number.
      rcases Nat.eq_or_lt_of_le (hlsn.symm ▸ hkept) with heq | hlt
      · rw [h.counted.lsn_inj r hmem r' hr' heq]
      · exact Nat.div_le_div_right (h.counted.live r hmem r' hr' hlsn.ge hlt).le
  case removeNext => exact h.removeNext hs
  case restart stays flushed redo walExists => exact h.restart hs

end Inv

/-- The records that the full-page logindex keeps have numbers of their own, which increase with the
LSN, and the slot of each holds the image that was written for it. -/
structure Preserved (par : Params) (s : State α n) : Prop where
  distinct : ∀ r ∈ s.records, ∀ r' ∈ s.records, s.kept ≤ r.lsn → s.kept ≤ r'.lsn → r ≠ r' →
    r.fullpageNo ≠ r'.fullpageNo
  increasing : ∀ r ∈ s.records, ∀ r' ∈ s.records, s.kept ≤ r.lsn → r.lsn < r'.lsn →
    r.fullpageNo < r'.fullpageNo
  slot : ∀ r ∈ s.records, s.kept ≤ r.lsn → r.written = true →
    ∃ i, s.names (par.segNo r.fullpageNo) = some i ∧
      s.files i (par.offset r.fullpageNo) = some r.image

theorem Preserved.of_inv (h : Inv par s) : Preserved par s where
  distinct r hr r' hr' hle hle' hne := by
    have hlsn : r.lsn ≠ r'.lsn := fun heq => hne (h.counted.lsn_inj r hr r' hr' heq)
    rcases Nat.lt_or_gt_of_ne hlsn with hlt | hgt
    · exact ne_of_lt (h.counted.live r hr r' hr' hle hlt)
    · exact Nat.ne_of_gt (h.counted.live r' hr' r hr hle' hgt)
  increasing := h.counted.live
  slot := h.filed.slot

/-- In every run whose steps meet the condition. -/
theorem images_preserved (par : Params) (s : State α n)
    (run : Reaches (State.step par) Numbered (State.init n) s) : Preserved par s :=
  .of_inv (run.invariant (Inv par) .init fun _ _ _ h hok hs => h.step hok hs)

instance (s : State α n) : (op : Op α n) → Decidable (Numbered s op)
  | .begin _ _ => inferInstanceAs (Decidable (∀ r ∈ s.records, s.kept ≤ r.lsn → s.restarted ≤ r.lsn))
  | .write p => inferInstanceAs (Decidable
      (∀ f ∈ (s.procs p).openFullpage, s.names f.1 = some f.2))
  | .insert _ _ | .release _ | .openFile _ | .create _ | .log _ | .read _ _ | .prealloc _
  | .truncate _ | .removeOldFiles | .removeNext | .restart _ _ _ _ => .isTrue trivial

/-- Two images in a file. -/
def twoPar : Params := ⟨2, 1, by decide⟩

/-- `polar_log_fullpage_snapshot_image` when there is a file for the segment. -/
def logImage (image : Nat) : List (Op Nat 1) :=
  [.begin 0 image, .insert 0 10, .release 0, .openFile 0, .write 0]

/-- Four images are logged, the logindex keeps the last one and the first file is removed. A crash
loses that image, and the next one takes the number of the third, which is not kept. -/
theorem images_preserved_restarted : ∃ s : State Nat 1,
    Reaches (State.step twoPar) Numbered (State.init 1) s ∧ Preserved twoPar s ∧
      s.records.map Fpsi.fullpageNo = [0, 1, 2, 2] ∧ s.kept = 30 ∧ s.restarted = 30 ∧
      s.names 0 = none := by
  obtain ⟨s, run, hview⟩ := exists_reaches_tested (State.step twoPar) Numbered (State.init 1)
    (.prealloc 0 :: .prealloc 2 :: logImage 5 ++ logImage 6 ++ logImage 7 ++ logImage 8 ++
      [.truncate 30, .removeOldFiles, .removeNext, .restart (fun _ => false) 30 0 true] ++
      logImage 9)
    (fun s => s.records.map Fpsi.fullpageNo = [0, 1, 2, 2] ∧ s.kept = 30 ∧ s.restarted = 30 ∧
      s.names 0 = none) (by decide +kernel)
  exact ⟨s, run, images_preserved _ s run, hview⟩

/-- After a crash the number of the last record is taken again, and its image is overwritten. -/
theorem images_overwritten :
    (¬ ∀ (n : Nat) (par : Params) (s : State Nat n),
      Reaches (State.step par) (fun _ _ => True) (State.init n) s →
      ∀ r ∈ s.records, ∀ r' ∈ s.records, s.kept ≤ r.lsn → r.lsn < r'.lsn →
        r.fullpageNo < r'.fullpageNo) ∧
    ¬ ∀ (n : Nat) (par : Params) (s : State Nat n),
      Reaches (State.step par) (fun _ _ => True) (State.init n) s →
      ∀ r ∈ s.records, s.kept ≤ r.lsn → r.written = true →
        ∃ i, s.names (par.segNo r.fullpageNo) = some i ∧
          s.files i (par.offset r.fullpageNo) = some r.image := by
  obtain ⟨s, run, hrecords, hkept, hname, hslot⟩ := exists_reaches_any (State.step twoPar)
    (State.init 1) (.prealloc 0 :: logImage 5 ++ logImage 6 ++
      .restart (fun _ => false) 20 0 true :: logImage 7)
    (fun s => s.records = [⟨0, 0, 5, true⟩, ⟨10, 1, 6, true⟩, ⟨20, 1, 7, true⟩] ∧ s.kept = 0 ∧
      s.names 0 = some 0 ∧ s.files 0 1 = some 7) (by decide +kernel)
  constructor
  · intro hall
    have hlt := hall 1 twoPar s run ⟨10, 1, 6, true⟩ (by simp [hrecords]) ⟨20, 1, 7, true⟩
      (by simp [hrecords]) (by simp [hkept]) (by decide)
    exact absurd hlt (lt_irrefl 1)
  · intro hall
    obtain ⟨i, hi, himage⟩ := hall 1 twoPar s run ⟨10, 1, 6, true⟩ (by simp [hrecords])
      (by simp [hkept]) rfl
    obtain rfl : 0 = i := some.inj (hname.symm.trans hi)
    have heq : some 7 = some 6 := hslot.symm.trans himage
    cases heq

end Polar.FullPage.Numbers
