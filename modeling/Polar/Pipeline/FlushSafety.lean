import Polar.Pipeline.FlushOrder

/-!
# The flush worker keeps the order of the files

The steps of the flush worker over the queue, the ring as an implementation of the queue, and what
holds in every state of modes 4 and 5 when the flush worker publishes after the write worker.
-/

namespace Polar.Pipeline.Flush

open Flush.State (live)

open List Function
open Option (bind_eq_some_iff)

variable {openSync : Bool} {segSize : Nat}

namespace Inv

variable {s t : QState}

/-- The table of the files after a sync of the entry's file: what is synced has changed. -/
theorem fsync_table {e : Entry} {f : File} {table : Nat → Option File} (hf : table e.fd = some f) :
    (∀ fd g, update table e.fd (some { f with synced := f.written }) fd = some g →
      ∃ g0, table fd = some g0 ∧ g.segNo = g0.segNo ∧ g.written = g0.written) ∧
    ∀ fd g0, table fd = some g0 → ∃ g,
      update table e.fd (some { f with synced := f.written }) fd = some g ∧
        g.segNo = g0.segNo ∧ g.written = g0.written := by
  constructor
  · intro fd g hg
    by_cases hfd : fd = e.fd
    · subst hfd
      obtain rfl : _ = g := by simpa using hg
      exact ⟨f, hf, rfl, rfl⟩
    · exact ⟨g, by simpa [hfd] using hg, rfl, rfl⟩
  · intro fd g0 hg
    by_cases hfd : fd = e.fd
    · subst hfd
      obtain rfl : f = g0 := Option.some.inj (hf.symm.trans hg)
      exact ⟨_, update_self .., rfl, rfl⟩
    · exact ⟨g0, by simpa [hfd] using hg, rfl, rfl⟩

section

variable (inv : Inv openSync segSize s)
include inv

/-- The flush worker moves without touching anything, to a place it may be in. -/
theorem setFlusher {pc : Flusher} (hphase : Phase { s with flusher := pc })
    (hlive : ∀ e ∈ live { s with flusher := pc }, e ∈ s.live) :
    Inv openSync segSize { s with flusher := pc } where
  queue := { inv.queue with backed := fun e he => inv.queue.backed e (hlive e he) }
  files := { inv.files with }
  writer := { inv.writer with }
  flush := { inv.flush with phase := hphase }
  sync := { inv.sync with }
  readers := { inv.readers with }

/-- The descriptors tell whether the next entry begins a segment. -/
theorem needClose_iff_fd_ne {a b : Entry} {q : List Entry}
    (hring : s.ring = a :: b :: q) (hlive : s.live = s.ring) :
    a.needClose = true ↔ a.fd ≠ b.fd := by
  have hchain := inv.queue.chain
  rw [hring] at hchain
  obtain ⟨⟨-, hseg⟩, -⟩ := isChain_cons_cons.mp hchain
  obtain ⟨f, hf, hfs, -⟩ := inv.queue.backed a (by simp [hlive, hring])
  obtain ⟨f', hf', hfs', -⟩ := inv.queue.backed b (by simp [hlive, hring])
  constructor
  · intro hc heq
    rw [if_pos hc] at hseg
    rw [heq] at hf
    obtain rfl : f = f' := Option.some.inj (hf.symm.trans hf')
    omega
  · intro hne
    by_contra hc
    rw [if_neg hc] at hseg
    exact hne (inv.files.unique _ _ f f' hf hf' (by omega))

/-- The flush worker syncs the file of its entry. -/
theorem fsync {e : Entry} {close stop : Bool} {rest : List Entry}
    (hpc : s.flusher = .sync e true close stop) (hring : s.ring = e :: rest)
    (hclose : close = e.needClose) (hstop : stop = false → rest ≠ []) :
    Inv openSync segSize { s with
      files := s.files.fsync openSync segSize e.fd e.segNo, flusher := .publish e close stop } := by
  have hlive : s.live = s.ring := by simp [live, hpc]
  obtain ⟨f, hf, hfs, hend, hw⟩ := inv.queue.backed e (by simp [hlive, hring])
  obtain ⟨hF, hdur⟩ := inv.flush.head e (by simp [hring])
  cases hsync : openSync with
  | true =>
    subst hsync
    obtain ⟨hsynced, hdurable⟩ := inv.sync.synced rfl e.fd f hf
    refine inv.setFlusher ⟨rest, hring, hclose, hstop, hend.trans hdurable, fun _ =>
      ⟨f, hf, hsynced⟩⟩ (by simp [live, hpc])
  | false =>
    subst hsync
    have hfsync : s.files.fsync false segSize e.fd e.segNo =
        { s.files with
          table := update s.files.table e.fd (some { f with synced := f.written })
          durable := max s.files.durable f.written } := by
      simp [Files.fsync, Files.durableTo, hf, hfs, hdur]
    obtain ⟨htable, htable'⟩ := fsync_table hf
    rw [hfsync]
    constructor
    · refine { inv.queue with backed := fun a ha => ?_ }
      obtain ⟨g0, hg0, hgs, hge, hgc⟩ := inv.queue.backed a (by rw [hlive]; exact ha)
      obtain ⟨g, hg, hs, hw⟩ := htable' a.fd g0 hg0
      exact ⟨g, hg, hs.trans hgs, hw ▸ hge, fun hc => hw.trans (hgc hc)⟩
    · refine ⟨inv.files.misused, fun a b g g' ha hb heq => ?_, fun a g ha => ?_, inv.files.count,
        fun a g ha => ?_⟩
      · obtain ⟨g0, hg0, hs, -⟩ := htable a g ha
        obtain ⟨g1, hg1, hs', -⟩ := htable b g' hb
        exact inv.files.unique a b g0 g1 hg0 hg1 (hs.symm.trans (heq.trans hs'))
      · obtain ⟨g0, hg0, hs, -⟩ := htable a g ha
        rw [hs]
        exact inv.files.current a g0 hg0
      · obtain ⟨g0, hg0, hs, -⟩ := htable a g ha
        rw [hs]
        exact inv.files.cover a g0 hg0
    · refine { inv.writer with notOpen := fun ho => ?_, openLog := fun fd g ho => ?_ }
      · have := (inv.writer.notOpen ho).2.2.2.1 e.fd
        simp [hf] at this
      · refine ⟨(inv.writer.openLog fd g ho).1, fun hcond => ?_⟩
        obtain ⟨f0, hf0, hf0s, hf0w⟩ := (inv.writer.openLog fd g ho).2 hcond
        obtain ⟨f1, hf1, hs, hw⟩ := htable' fd f0 hf0
        exact ⟨f1, hf1, hs.trans hf0s, hw.trans hf0w⟩
    · refine ⟨⟨rest, hring, hclose, hstop, hend.trans (le_max_right _ _), fun _ =>
        ⟨_, update_self .., rfl⟩⟩, inv.flush.le_durable.trans (le_max_left _ _),
        inv.flush.le_write, fun a ha => ?_, fun hr h0 => ?_⟩
      · exact (inv.flush.head a ha).imp_right fun h => h.trans (le_max_left _ _)
      · exact (inv.flush.empty hr h0).trans (le_max_left _ _)
    · exact ⟨by simp, by simp⟩
    · exact { inv.readers with }

theorem publishFlush {e : Entry} {close stop : Bool}
    (hpc : s.flusher = .publish e close stop) (hok : e.endLsn ≤ s.logWriteResult) :
    Inv openSync segSize { s with logFlushResult := e.endLsn, flusher := .close e close stop } := by
  have hphase := inv.flush.phase
  simp only [Phase, hpc] at hphase
  obtain ⟨rest, hring, hclose, hstop, hdur, hsync⟩ := hphase
  have hlive : s.live = s.ring := by simp [live, hpc]
  constructor
  · exact { inv.queue with backed := fun a ha => inv.queue.backed a (by rw [hlive]; exact ha) }
  · exact { inv.files with }
  · refine { inv.writer with fresh := fun h0 => ?_ }
    have := (inv.writer.fresh h0).1
    simp [hring] at this
  · refine ⟨⟨rest, hring, hclose, hstop, .inl rfl, hsync⟩, hdur, hok, fun a ha => ?_, fun h => ?_⟩
    · obtain rfl : e = a := by simpa [hring] using ha
      exact ⟨le_refl _, (inv.flush.head e (by simp [hring])).2⟩
    · simp [hring] at h
  · exact { inv.sync with }
  · exact { inv.readers with }

/-- The file of a finished segment is closed. -/
theorem closeFile {e : Entry} {stop : Bool} (hpc : s.flusher = .close e true stop) :
    Inv openSync segSize { s with files := s.files.close e.fd e.segNo, flusher := .clear stop } := by
  have hphase := inv.flush.phase
  simp only [Phase, hpc] at hphase
  obtain ⟨rest, hring, hclose, hstop, hdone, hsync⟩ := hphase
  have hlive : s.live = s.ring := by simp [live, hpc]
  obtain ⟨f, hf, hfs, hend, hw⟩ := inv.queue.backed e (by simp [hlive, hring])
  obtain ⟨f', hf', hsynced⟩ := hsync trivial
  obtain rfl : f = f' := Option.some.inj (hf.symm.trans hf')
  have hcl : s.files.close e.fd e.segNo =
      { s.files with
        table := update s.files.table e.fd none
        closed := update s.files.closed e.segNo (s.files.closed e.segNo + 1) } := by
    simp [Files.close, hf, hfs, hsynced]
  have hcur := inv.files.current e.fd f hf
  rw [hfs] at hcur
  have hopen : ∀ fd g, update s.files.table e.fd none fd = some g →
      fd ≠ e.fd ∧ s.files.table fd = some g := by
    intro fd g hg
    by_cases hfd : fd = e.fd
    · simp [hfd] at hg
    · exact ⟨hfd, by simpa [hfd] using hg⟩
  have hseg : ∀ fd g, fd ≠ e.fd → s.files.table fd = some g → g.segNo ≠ e.segNo :=
    fun fd g hne hg heq => hne (inv.files.unique fd e.fd g f hg hf (heq.trans hfs.symm))
  rw [hcl]
  constructor
  · refine { inv.queue with backed := fun a ha => ?_ }
    have ha : a ∈ rest := by simpa [live, hring] using ha
    have hchain := inv.queue.chain
    rw [hring] at hchain
    obtain ⟨g, hg, hgs, hge⟩ := inv.queue.backed a (by simp [hlive, hring, ha])
    have hne : a.fd ≠ e.fd := by
      intro heq
      obtain rfl : g = f := Option.some.inj (hg.symm.trans (heq ▸ hf))
      have := (isChain_follows hchain ha).2.2 hclose.symm
      omega
    exact ⟨g, by simpa [hne] using hg, hgs, hge⟩
  · refine ⟨inv.files.misused, fun a b g g' ha hb => ?_, fun a g ha => ?_, fun n => ?_,
      fun a g ha => inv.files.cover a g (hopen a g ha).2⟩
    · exact inv.files.unique a b g g' (hopen a g ha).2 (hopen b g' hb).2
    · obtain ⟨hne, hg⟩ := hopen a g ha
      obtain ⟨h1, h2, h3⟩ := inv.files.current a g hg
      exact ⟨h1, h2, by simpa [hseg a g hne hg] using h3⟩
    · obtain ⟨h1, h2, h3⟩ := inv.files.count n
      refine ⟨?_, h2, h3⟩
      by_cases hn : n = e.segNo
      · subst hn
        simp [hcur.2.1, hcur.2.2]
      · simpa [hn] using h1
  · refine { inv.writer with notOpen := fun ho => ?_, openLog := fun fd g ho => ?_ }
    · have := (inv.writer.notOpen ho).2.2.2.1 e.fd
      simp [hf] at this
    · refine ⟨(inv.writer.openLog fd g ho).1, fun hcond => ?_⟩
      obtain ⟨f0, hf0, hf0s, hf0w⟩ := (inv.writer.openLog fd g ho).2 hcond
      -- the file that is written to is not the one of a finished segment
      have hne : fd ≠ e.fd := by
        rintro rfl
        obtain rfl : f0 = f := Option.some.inj (hf0.symm.trans hf)
        have hwe := hw hclose.symm
        have hle := inv.queue.le_localFlush (e := e) (by simp [hring])
        have hstopLsn := (inv.queue.entry e (by simp [hring])).needClose_iff.mp hclose.symm
        have hlw : s.localWrite = (e.segNo + 1) * segSize := by omega
        have hmod : s.localWrite % segSize = 0 := by rw [hlw, Nat.mul_mod_left]
        obtain hcond | hcond := hcond
        · change s.localFlush < s.localWrite at hcond
          omega
        · exact hcond hmod
      exact ⟨f0, by simpa [hne] using hf0, hf0s, hf0w⟩
  · refine { inv.flush with phase := ⟨e, rest, hring, hstop, hdone, fun _ => by simp⟩ }
  · exact ⟨inv.sync.written, fun h fd g hg => inv.sync.synced h fd g (hopen fd g hg).2⟩
  · exact { inv.readers with }

/-- The first entry leaves the ring. -/
theorem clear {stop : Bool} (hpc : s.flusher = .clear stop) :
    Inv openSync segSize { s with ring := s.ring.tail, flusher := if stop then .idle else .look } := by
  have hphase := inv.flush.phase
  simp only [Phase, hpc] at hphase
  obtain ⟨e, rest, hring, hstop, hdone, hclosed⟩ := hphase
  have hlive : s.live = rest := by simp [live, hpc, hring]
  have hchain := inv.queue.chain
  rw [hring] at hchain
  have hlast : ∀ a, rest.getLast? = some a → a.endLsn ≤ s.localFlush ∧
      a.endLsn / segSize = s.localFlush / segSize := by
    intro a ha
    refine inv.queue.last a ?_
    rw [hring, getLast?_cons, ha]
    rfl
  have he := inv.queue.entry e (by simp [hring])
  simp only [hring]
  constructor
  · refine ⟨fun a ha => inv.queue.entry a (by simp [hring, show a ∈ rest from ha]),
      (isChain_cons.mp hchain).2, hlast, fun a ha => ?_⟩
    refine inv.queue.backed a ?_
    rw [hlive]
    cases stop <;> exact ha
  · refine { inv.files with cover := fun fd f hf => ?_ }
    obtain hopen | ⟨a, ha, hfd, hseg, hc⟩ := inv.files.cover fd f hf
    · exact .inl hopen
    · rw [hring] at ha
      obtain rfl | ha := mem_cons.mp ha
      · have := (inv.files.current fd f hf).2.2
        rw [← hseg] at this
        exact (hclosed hc this).elim
      · exact .inr ⟨a, ha, hfd, hseg, hc⟩
  · refine { inv.writer with fresh := fun h0 => ?_, notOpen := fun ho => ?_ }
    · have := (inv.writer.fresh h0).1
      simp [hring] at this
    · have := (inv.writer.notOpen ho).2.2.1
      simp [hring] at this
  · obtain ⟨hF, hdur⟩ := inv.flush.head e (by simp [hring])
    refine { inv.flush with phase := ?_, head := fun a ha => ?_, empty := fun hnil _ => ?_ }
    · cases stop with
      | true => trivial
      | false => exact hstop rfl
    · obtain ⟨hend, hseg⟩ := (isChain_cons.mp hchain).1 a ha
      refine ⟨hF.trans hend, ?_⟩
      by_cases hc : e.needClose = true
      · obtain hF | ⟨hcontra, -⟩ := hdone
        · rw [hseg, if_pos hc, ← he.needClose_iff.mp hc, ← hF]
          exact inv.flush.le_durable
        · simp [hc] at hcontra
      · rwa [hseg, if_neg hc]
    · obtain hF | ⟨-, hne⟩ := hdone
      · obtain ⟨-, hdiv⟩ := inv.queue.last e (by simp [hring, show rest = [] from hnil])
        rw [← hdiv, ← hF]
        exact (Nat.div_mul_le_self _ _).trans inv.flush.le_durable
      · exact (hne hnil).elim
  · exact { inv.sync with }
  · exact { inv.readers with }

/-- The flush worker goes on. -/
theorem flushStep (hok : Ordered s .flush)
    (hs : s.flushStep fifo openSync segSize = some t) : Inv openSync segSize t := by
  simp only [State.flushStep] at hs
  split at hs
  next hpc =>
    split at hs <;> cases hs
    exact inv.setFlusher trivial (by simp [live, hpc])
  next hpc =>
    split at hs <;> cases hs
    · exact inv.setFlusher trivial (by simp [live, hpc])
    · next e hcur =>
      refine inv.setFlusher ?_ (by simp [live, hpc])
      change s.ring ≠ []
      intro hnil
      simp [fifo, hnil] at hcur
  next hpc =>
    have hne : s.ring ≠ [] := by simpa [Phase, hpc] using inv.flush.phase
    have hlive : s.live = s.ring := by simp [live, hpc]
    obtain ⟨e, rest, hring⟩ := exists_cons_of_ne_nil hne
    simp only [fifo, hring, headD_cons, tail_cons] at hs
    rw [← hring] at hs
    cases rest with
    | nil =>
      cases hs
      exact inv.setFlusher ⟨[], hring, rfl, by simp, by simp⟩ (by simp [live, hpc])
    | cons b rest =>
      have hiff := inv.needClose_iff_fd_ne hring hlive
      simp only [head?_cons] at hs
      split at hs
      · next hfd =>
        cases hs
        exact inv.setFlusher ⟨b :: rest, hring, (hiff.mpr hfd).symm, by simp, by simp⟩
          (by simp [live, hpc])
      · next hfd =>
        have hc : false = e.needClose := (Bool.eq_false_iff.mpr fun hc => hfd (hiff.mp hc)).symm
        split at hs <;> cases hs
        · exact inv.setFlusher ⟨b :: rest, hring, hc, by simp, by simp⟩
            (by simp [live, hpc])
        · exact inv.setFlusher ⟨b :: rest, hring, hc, by simp, by simp⟩
            (by simp [live, hpc])
  next e flush close stop hpc =>
    have hphase := inv.flush.phase
    simp only [Phase, hpc] at hphase
    obtain ⟨rest, hring, hclose, hmerge, hstop⟩ := hphase
    split at hs <;> cases hs
    · next hflush =>
      subst hflush
      exact inv.fsync hpc hring hclose hstop
    · next hflush =>
      obtain ⟨hc, hrest⟩ := hmerge (by simpa using hflush)
      exact inv.setFlusher ⟨rest, hring, hclose, hstop, .inr ⟨hclose.symm.trans hc, hrest⟩,
        by simp [hc]⟩ (by simp [live, hpc])
  next e close stop hpc =>
    cases hs
    exact inv.publishFlush hpc (hok e close stop hpc)
  next e close stop hpc =>
    split at hs <;> cases hs
    · next hc =>
      subst hc
      exact inv.closeFile hpc
    · next hc =>
      have hphase := inv.flush.phase
      simp only [Phase, hpc] at hphase
      obtain ⟨rest, hring, hclose, hstop, hdone, -⟩ := hphase
      refine inv.setFlusher ⟨e, rest, hring, hstop, hdone, fun hn => ?_⟩ ?_
      · exact (hc (hclose.trans hn)).elim
      · intro a ha
        simpa [live, hpc] using mem_of_mem_tail ha
  next stop hpc =>
    cases hs
    exact inv.clear hpc

end

/-- Pages are written to the target, for which `files` has the file `f`. -/
theorem writeTo {fd upTo rqstWrite rqstFlush : Nat} {opened : Nat → Nat} (files : Files)
    (hseg : 0 < segSize) (inv : Inv openSync segSize s)
    (hw : s.writer = .loop rqstWrite rqstFlush) (hlt : s.localWrite < upTo)
    (hle : upTo ≤ (s.localWrite / segSize + 1) * segSize)
    (target : Target s fd (s.localWrite / segSize) opened) {f : File}
    (hfs : f.segNo = s.localWrite / segSize)
    (hfiles : files = { s.files with table := update s.files.table fd (some f), opened := opened }) :
    Inv openSync segSize { s with
      files := files.write openSync segSize fd (s.localWrite / segSize) upTo
      openLog := some (fd, s.localWrite / segSize), localWrite := upTo
      writer := if upTo = (s.localWrite / segSize + 1) * segSize
        then .finishSeg rqstWrite rqstFlush else .loop rqstWrite rqstFlush } := by
  subst hfiles
  cases hsync : openSync with
  | true =>
    subst hsync
    have hdur : s.localWrite / segSize * segSize ≤ s.files.durable :=
      (Nat.div_mul_le_self _ _).trans (inv.sync.written rfl)
    have := inv.write upTo hseg hw hlt hle target (le_max_left _ upTo)
      fun _ => ⟨rfl, le_max_right s.files.durable upTo⟩
    simpa [Files.write, Files.durableTo, hfs, hdur] using this
  | false =>
    subst hsync
    have := inv.write f.synced hseg hw hlt hle target (le_refl _) (by simp)
    simpa [Files.write, hfs] using this

/-- The write worker writes pages of one segment. -/
theorem writeStep {upTo fd : Nat} (hseg : 0 < segSize) (inv : Inv openSync segSize s)
    (hs : s.writeStep openSync segSize upTo fd = some t) : Inv openSync segSize t := by
  simp only [State.writeStep] at hs
  split at hs
  next rqstWrite rqstFlush hw =>
    obtain ⟨hrange, hs⟩ := Option.ite_none_right_eq_some.mp hs
    obtain ⟨hlt, -, hle⟩ := hrange
    have hnew (hnone : s.files.table fd = none)
        (hzero : s.files.opened (s.localWrite / segSize) = 0) (hcov) :=
      inv.writeTo (s.files.openFile fd (s.localWrite / segSize) s.localWrite) hseg hw hlt hle
        (.ofNew inv hnone hzero hcov) (f := ⟨_, s.localWrite, s.localWrite⟩) rfl
        (by simp [Files.openFile, hzero])
    split at hs
    · next openFd openSeg hopen =>
      obtain ⟨hprev, hfile⟩ := inv.writer.openLog openFd openSeg hopen
      split at hs
      · next hsame =>
        cases hs
        subst hsame
        -- the open segment is the one of the next byte: it is not finished
        have hlast : s.localWrite < (s.localWrite / segSize + 1) * segSize := lt_succ_div_mul hseg
        have hmod : s.localWrite % segSize ≠ 0 := fun hmod => by
          have := (mod_eq_zero_iff_prevSeg hseg inv.writer.pos).mp hmod
          rw [← hprev] at this
          omega
        obtain ⟨f, hf, hfs, hfw⟩ := hfile (.inr hmod)
        have := inv.writeTo s.files hseg hw hlt hle (.ofOpen inv hopen hf hfs hfw hlast) hfs
          (by rw [← hf, update_eq_self])
        rwa [← hopen] at this
      · next hother =>
        split at hs <;> cases hs
        next hnone =>
        have hmod : s.localWrite % segSize = 0 := by
          by_contra hmod
          exact hother (hprev.trans (prevSeg_of_mod_ne hseg hmod))
        have hflush : ¬ s.localFlush < s.localWrite := fun h =>
          inv.writer.inside (by simp [hw]) h (by simp [hopen]) hmod
        refine hnew hnone ?_ ?_
        · by_contra hne
          have h1 := (inv.files.count _).2.2 hne
          have h2 := Nat.div_mul_cancel (Nat.dvd_of_mod_eq_zero hmod)
          omega
        · intro fd' f hf
          obtain ⟨-, h | h⟩ | hcov := inv.files.cover fd' f hf
          · exact (hflush h).elim
          · exact (h hmod).elim
          · exact hcov
    · next hopen =>
      split at hs <;> cases hs
      next hnone =>
      obtain ⟨-, -, -, hempty, hzero⟩ := inv.writer.notOpen hopen
      exact hnew hnone (hzero _) fun fd' f hf => by simp [hempty] at hf
  next => cases hs

theorem appendStep {fd : Nat} (hseg : 0 < segSize) (inv : Inv openSync segSize s)
    (hs : s.appendStep fifo openSync segSize fd = some t) : Inv openSync segSize t := by
  simp only [State.appendStep] at hs
  split at hs
  next rqstWrite rqstFlush hw =>
    obtain ⟨hmod, hlt⟩ := inv.writer.finish _ _ hw
    obtain ⟨⟨openFd, openSeg⟩, hopen, hs⟩ := bind_eq_some_iff.mp hs
    cases hs
    exact inv.append hseg hopen hlt (by simp [hmod]) (by simp)
  next rqstWrite rqstFlush hw =>
    split at hs
    next hcond =>
      obtain ⟨-, -, hlt⟩ := hcond
      split at hs
      · next hsync =>
        cases hs
        subst hsync
        exact inv.skipEntry hseg (by simp [hw]) hlt (by simp)
      · next hsync =>
        obtain rfl : openSync = false := Bool.eq_false_iff.mpr hsync
        have hmod := inv.writer.inside (by simp [hw]) hlt (by simp)
        split at hs
        · next openFd openSeg hopen =>
          cases hs
          exact inv.append hseg hopen hlt (by simp [hmod]) (by simp)
        · next hopen =>
          split at hs <;> cases hs
          exact (inv.openCurrent hopen).append hseg rfl hlt (by simpa using hmod) (by simp)
    next => cases hs
  next => cases hs

theorem step {op : Op} (hseg : 0 < segSize) (inv : Inv openSync segSize s) (hok : Ordered s op)
    (hs : s.step fifo openSync segSize op = some t) : Inv openSync segSize t := by
  cases op <;> simp only [State.step] at hs
  case begin rqstWrite rqstFlush =>
    split at hs <;> cases hs
    next hw => exact inv.setWriter (by simp [hw.1]) (by simp)
  case write upTo fd => exact inv.writeStep hseg hs
  case append fd => exact inv.appendStep hseg hs
  case publish =>
    split at hs
    next hw =>
      split at hs <;> cases hs
      exact (inv.setWriter (w := .idle) (by simp [hw]) (by simp)).publishWrite
    next hw =>
      cases hs
      exact (inv.setWriter (w := .idle) (by simp [hw]) (by simp)).publishWrite
    next => cases hs
  case flush => exact inv.flushStep hok hs
  case readFlush i =>
    split at hs <;> cases hs
    refine inv.setReaders (fun f hf => ?_) inv.readers.seen
    obtain hf | hf := mem_or_eq_of_mem_set hf
    · exact inv.readers.reading f hf
    · obtain rfl := Option.some.inj hf
      exact inv.flush.le_write
  case readWrite i =>
    split at hs
    · next flush hi =>
      cases hs
      refine inv.setReaders (fun f hf => ?_) fun p hp => ?_
      · obtain hf | hf := mem_or_eq_of_mem_set hf
        · exact inv.readers.reading f hf
        · cases hf
      · obtain rfl | hp := mem_cons.mp hp
        · exact inv.readers.reading flush (mem_of_getElem? hi)
        · exact inv.readers.seen p hp
    · cases hs

end Inv

/-- Only the flush worker moves the flush position, to the end of its current entry. -/
theorem State.step_logFlushResult {ρ : Type} {ops : QueueOps ρ Entry} {s t : State ρ} {op : Op}
    (hs : s.step ops openSync segSize op = some t) :
    t.logFlushResult = s.logFlushResult ∨
      ∃ e close stop, s.flusher = .publish e close stop ∧ t.logFlushResult = e.endLsn := by
  cases op with
  | begin rqstWrite rqstFlush | readFlush i | readWrite i =>
    simp only [State.step] at hs
    split at hs <;> cases hs
    exact .inl rfl
  | write upTo fd =>
    simp only [State.step, State.writeStep] at hs
    repeat' split at hs
    all_goals cases hs
    all_goals exact .inl rfl
  | append fd =>
    simp only [State.step, State.appendStep] at hs
    split at hs
    · obtain ⟨_, -, hs⟩ := bind_eq_some_iff.mp hs
      obtain ⟨_, -, hs⟩ := bind_eq_some_iff.mp hs
      cases hs
      exact .inl rfl
    · repeat' split at hs
      all_goals first
        | (obtain ⟨_, -, hs⟩ := bind_eq_some_iff.mp hs; cases hs; exact .inl rfl)
        | (cases hs; exact .inl rfl)
        | cases hs
    · cases hs
  | publish =>
    simp only [State.step] at hs
    repeat' split at hs
    all_goals cases hs
    all_goals exact .inl rfl
  | flush =>
    simp only [State.step, State.flushStep] at hs
    repeat' split at hs
    all_goals cases hs
    all_goals first
      | exact .inl rfl
      | exact .inr ⟨_, _, _, ‹_›, rfl⟩

/-- The flush position does not decrease. -/
theorem Inv.le_endLsn {s : QState} {e : Entry} {close stop : Bool} (inv : Inv openSync segSize s)
    (hpc : s.flusher = .publish e close stop) : s.logFlushResult ≤ e.endLsn := by
  have hphase := inv.flush.phase
  simp only [Phase, hpc] at hphase
  obtain ⟨rest, hring, -⟩ := hphase
  exact (inv.flush.head e (by simp [hring])).1

section Ring

variable {n : Nat} {s t : State (Slots Entry)} {q : List Entry}

/-- The state with another queue in the place of its ring. -/
def State.withRing {ρ τ : Type} (s : State ρ) (ring : τ) : State τ :=
  { logWriteResult := s.logWriteResult, logFlushResult := s.logFlushResult, ring := ring
    files := s.files, writer := s.writer, localWrite := s.localWrite, localFlush := s.localFlush
    openLog := s.openLog, flusher := s.flusher, readers := s.readers, seen := s.seen }

/-- The ring holds the queue; from the look at the next slot until it clears its slot, the flush
worker's counter is one ahead. -/
def Implements (n : Nat) (s : State (Slots Entry)) (q : List Entry) : Prop :=
  match s.flusher with
  | .idle | .enter | .look => Slots.Holds n s.ring.delNo s.ring q
  | _ => ∃ base, s.ring.delNo = base + 1 ∧ Slots.Holds n base s.ring q

theorem writeStep_withRing {ρ τ : Type} (s : State ρ) (ring : τ) (upTo fd : Nat) :
    (s.withRing ring).writeStep openSync segSize upTo fd =
      (s.writeStep openSync segSize upTo fd).map (·.withRing ring) := by
  cases hw : s.writer with
  | idle | finishSeg | publish => simp [State.writeStep, State.withRing, hw]
  | loop rqstWrite rqstFlush =>
    simp only [State.writeStep, State.withRing, hw]
    split
    · cases s.openLog with
      | none =>
        by_cases hfd : s.files.table fd = none
        · simp [hfd]
        · simp [hfd]
      | some p =>
        obtain ⟨openFd, openSeg⟩ := p
        by_cases hseg : openSeg = s.localWrite / segSize
        · simp [hseg]
        · by_cases hfd : s.files.table fd = none
          · simp [hseg]
          · simp [hfd]
    · rfl

/-- The entry goes behind the queue. -/
theorem Implements.append {e : Entry} {r : Slots Entry} (hn : 0 < n) (h : Implements n s q)
    (ha : (Slots.ops n).append s.ring e = some r) :
    Implements n { s with ring := r } (q ++ [e]) := by
  unfold Implements at h ⊢
  cases hpc : s.flusher with
  | idle | enter | look =>
    simp only [hpc] at h ⊢
    obtain ⟨hr, hdel⟩ := h.append hn ha
    exact hdel ▸ hr
  | sync | publish | close | clear =>
    simp only [hpc] at h ⊢
    obtain ⟨base, hbase, h⟩ := h
    obtain ⟨hr, hdel⟩ := h.append hn ha
    exact ⟨base, hdel.trans hbase, hr⟩

/-- The write worker's part does not look at the flush worker's counter. -/
theorem Implements.appendStep {fd : Nat} (hn : 0 < n) (h : Implements n s q)
    (hs : s.appendStep (Slots.ops n) openSync segSize fd = some t) :
    ∃ q', (s.withRing q).appendStep fifo openSync segSize fd = some (t.withRing q') ∧
      Implements n t q' := by
  simp only [State.appendStep] at hs
  split at hs
  next rqstWrite rqstFlush hw =>
    obtain ⟨⟨openFd, openSeg⟩, hopen, hs⟩ := bind_eq_some_iff.mp hs
    obtain ⟨r, hr, hs⟩ := bind_eq_some_iff.mp hs
    cases hs
    exact ⟨_, by simp [State.appendStep, State.withRing, hw, hopen, fifo], h.append hn hr⟩
  next rqstWrite rqstFlush hw =>
    obtain ⟨hcond, hs⟩ := Option.ite_none_right_eq_some.mp hs
    split at hs
    · next hsync =>
      cases hs
      exact ⟨q, by simp [State.appendStep, State.withRing, hw, hcond, hsync], h⟩
    · next hsync =>
      split at hs
      · next openFd openSeg hopen =>
        obtain ⟨r, hr, hs⟩ := bind_eq_some_iff.mp hs
        cases hs
        exact ⟨_, by simp [State.appendStep, State.withRing, hw, hopen, fifo, hcond, hsync],
          h.append hn hr⟩
      · next hopen =>
        obtain ⟨hfd, hs⟩ := Option.ite_none_right_eq_some.mp hs
        obtain ⟨r, hr, hs⟩ := bind_eq_some_iff.mp hs
        cases hs
        exact ⟨_, by simp [State.appendStep, State.withRing, hw, hopen, fifo, hcond, hsync, hfd],
          h.append hn hr⟩
  next => cases hs

/-- The flush worker sees the queue in the ring of at least two slots. -/
theorem Implements.flushStep (hn : 2 ≤ n) (h : Implements n s q) (hphase : Phase (s.withRing q))
    (hs : s.flushStep (Slots.ops n) openSync segSize = some t) :
    ∃ q', (s.withRing q).flushStep fifo openSync segSize = some (t.withRing q') ∧
      Implements n t q' := by
  have hn' : 0 < n := by omega
  unfold Implements at h
  cases hpc : s.flusher with
  | idle =>
    simp only [hpc] at h
    simp only [State.flushStep, hpc] at hs
    split at hs <;> cases hs
    next hlt => exact ⟨q, by simp [State.flushStep, State.withRing, hpc, hlt], h⟩
  | enter =>
    simp only [hpc] at h
    simp only [State.flushStep, hpc, h.current hn'] at hs
    split at hs <;> cases hs
    · next hq => exact ⟨q, by simp [State.flushStep, State.withRing, hpc, fifo, hq], h⟩
    · next e hq => exact ⟨q, by simp [State.flushStep, State.withRing, hpc, fifo, hq], h⟩
  | look =>
    simp only [hpc] at h
    have hne : q ≠ [] := by simpa [Phase, State.withRing, hpc] using hphase
    obtain ⟨e, rest, rfl⟩ := exists_cons_of_ne_nil hne
    have hmoved : Slots.Holds n s.ring.delNo { s.ring with delNo := s.ring.delNo + 1 }
        (e :: rest) := { h with }
    simp only [State.flushStep, hpc, h.next hn] at hs
    cases rest with
    | nil =>
      cases hs
      exact ⟨[e], by simp [State.flushStep, State.withRing, hpc, fifo], _, rfl, hmoved⟩
    | cons b rest =>
      simp only [head?_cons] at hs
      refine ⟨e :: b :: rest, ?_⟩
      split at hs
      · next hfd =>
        cases hs
        exact ⟨by simp [State.flushStep, State.withRing, hpc, fifo, hfd], _, rfl, hmoved⟩
      · next hfd =>
        split at hs <;> cases hs
        · next hc =>
          exact ⟨by simp [State.flushStep, State.withRing, hpc, fifo, hfd, hc], _, rfl, hmoved⟩
        · next hc =>
          exact ⟨by simp [State.flushStep, State.withRing, hpc, fifo, hfd, hc], _, rfl, hmoved⟩
  | sync e flush close stop =>
    simp only [hpc] at h
    simp only [State.flushStep, hpc] at hs
    split at hs <;> cases hs
    · next hf => exact ⟨q, by simp [State.flushStep, State.withRing, hpc, hf], h⟩
    · next hf => exact ⟨q, by simp [State.flushStep, State.withRing, hpc, hf], h⟩
  | publish e close stop =>
    simp only [hpc] at h
    simp only [State.flushStep, hpc] at hs
    cases hs
    exact ⟨q, by simp [State.flushStep, State.withRing, hpc], h⟩
  | close e close stop =>
    simp only [hpc] at h
    simp only [State.flushStep, hpc] at hs
    split at hs <;> cases hs
    · next hc => exact ⟨q, by simp [State.flushStep, State.withRing, hpc, hc], h⟩
    · next hc => exact ⟨q, by simp [State.flushStep, State.withRing, hpc, hc], h⟩
  | clear stop =>
    simp only [hpc] at h
    obtain ⟨base, hbase, h⟩ := h
    simp only [State.withRing, hpc] at hphase
    obtain ⟨e, rest, rfl, -⟩ := hphase
    obtain ⟨hcl, hdel⟩ := h.clear hbase
    simp only [State.flushStep, hpc] at hs
    cases hs
    refine ⟨rest, by simp [State.flushStep, State.withRing, hpc, fifo], ?_⟩
    rw [← hdel] at hcl
    cases stop <;> exact hcl

/-- The state of the ring implements a state of the queue that keeps the invariant. -/
def Sim (n : Nat) (openSync : Bool) (segSize : Nat) (s : State (Slots Entry)) : Prop :=
  ∃ q, Implements n s q ∧ Inv openSync segSize (s.withRing q)

theorem Sim.init {lsn readers : Nat} (hpos : 0 < lsn)
    (hstart : openSync = false → lsn % segSize ≠ 0) :
    Sim n openSync segSize (State.init Slots.init lsn readers) :=
  ⟨[], Slots.holds_init, Inv.init hpos hstart⟩

theorem Implements.step {op : Op} (hn : 2 ≤ n) (h : Implements n s q)
    (hphase : Phase (s.withRing q)) (hs : s.step (Slots.ops n) openSync segSize op = some t) :
    ∃ q', (s.withRing q).step fifo openSync segSize op = some (t.withRing q') ∧
      Implements n t q' := by
  cases op <;> simp only [State.step] at hs
  case begin rqstWrite rqstFlush =>
    split at hs <;> cases hs
    next hw => exact ⟨q, by simp [State.step, State.withRing, hw], h⟩
  case write upTo fd =>
    refine ⟨q, ?_, ?_⟩
    · exact (writeStep_withRing s q upTo fd).trans (congrArg (Option.map _) hs)
    · simp only [State.writeStep] at hs
      repeat' split at hs
      all_goals cases hs
      all_goals exact h
  case append fd => exact h.appendStep (by omega) hs
  case publish =>
    split at hs
    next hw =>
      split at hs <;> cases hs
      next hcond => exact ⟨q, by simp [State.step, State.withRing, hw, hcond], h⟩
    next hw =>
      cases hs
      exact ⟨q, by simp [State.step, State.withRing, hw], h⟩
    next => cases hs
  case flush => exact h.flushStep hn hphase hs
  case readFlush i =>
    split at hs <;> cases hs
    next hi => exact ⟨q, by simp [State.step, State.withRing, hi], h⟩
  case readWrite i =>
    split at hs <;> cases hs
    next hi => exact ⟨q, by simp [State.step, State.withRing, hi], h⟩

theorem Sim.step {op : Op} (hn : 2 ≤ n) (hseg : 0 < segSize) (h : Sim n openSync segSize s)
    (hok : Ordered s op) (hs : s.step (Slots.ops n) openSync segSize op = some t) :
    Sim n openSync segSize t := by
  obtain ⟨q, himp, inv⟩ := h
  obtain ⟨q', hq, himp'⟩ := himp.step hn inv.flush.phase hs
  refine ⟨q', himp', inv.step hseg ?_ hq⟩
  cases op <;> exact hok

/-- An entry of the queue stands in a slot that is in use. -/
theorem Implements.exists_slot {e : Entry} (h : Implements n s q) (he : e ∈ q) :
    ∃ i, s.ring.slots i = (true, e) := by
  obtain ⟨base, hholds⟩ : ∃ base, Slots.Holds n base s.ring q := by
    unfold Implements at h
    split at h
    all_goals first | exact ⟨_, h⟩ | exact ⟨_, h.choose_spec.2⟩
  obtain ⟨i, hi, rfl⟩ := mem_iff_getElem.mp he
  exact ⟨_, hholds.filled i hi⟩

end Ring

/-- In every run over a ring of at least two slots that starts inside a segment, or with writes that
are durable, and in which the flush worker publishes only ends that the write worker has published:
the flush position does not decrease and stays behind what is synced; files are used while they are
open, closed after a sync of their last write and at most once; a file that is open is written to
or has the entry that will close it in the ring; and no reader sees a flush position beyond the
write position. -/
theorem flush_position_safe {n segSize lsn readers : Nat} {openSync : Bool}
    {s : State (Slots Entry)} (hn : 2 ≤ n) (hseg : 0 < segSize) (hlsn : 0 < lsn)
    (hstart : openSync = false → lsn % segSize ≠ 0)
    (run : Reaches (State.step (Slots.ops n) openSync segSize) Ordered
      (State.init Slots.init lsn readers) s) :
    (∀ op t, Ordered s op → s.step (Slots.ops n) openSync segSize op = some t →
      s.logFlushResult ≤ t.logFlushResult) ∧
    s.logFlushResult ≤ s.files.durable ∧
    s.files.misused = false ∧
    (∀ segNo, s.files.closed segNo ≤ s.files.opened segNo ∧ s.files.opened segNo ≤ 1) ∧
    (∀ fd f, s.files.table fd = some f → s.files.closed f.segNo = 0 ∧
      (s.openLog = some (fd, f.segNo) ∨ ∃ i e, s.ring.slots i = (true, e) ∧ e.fd = fd ∧
        e.segNo = f.segNo ∧ e.needClose = true)) ∧
    ∀ p ∈ s.seen, p.1 ≤ p.2 := by
  have hsim : Sim n openSync segSize s :=
    run.invariant (Sim n openSync segSize) (.init hlsn hstart)
      fun _ _ _ h hok hs => h.step hn hseg hok hs
  obtain ⟨q, himp, inv⟩ := hsim
  refine ⟨fun op t _ hs => ?_, inv.flush.le_durable, inv.files.misused,
    fun segNo => ⟨(inv.files.count segNo).1, (inv.files.count segNo).2.1⟩, fun fd f hf => ?_,
    inv.readers.seen⟩
  · obtain heq | ⟨e, close, stop, hpc, heq⟩ := State.step_logFlushResult hs
    · exact heq.ge
    · rw [heq]
      exact inv.le_endLsn hpc
  · refine ⟨(inv.files.current fd f hf).2.2, ?_⟩
    obtain ⟨hopen, -⟩ | ⟨e, he, hcov⟩ := inv.files.cover fd f hf
    · exact .inl hopen
    · obtain ⟨i, hi⟩ := himp.exists_slot he
      exact .inr ⟨i, e, hi, hcov⟩

/-- WAL is written over a segment boundary, the flush worker syncs both files, publishes both ends
and closes the first file, and a backend reads the positions. -/
def writtenRun : List Op :=
  [.begin 1050 1050, .write 1000 3, .append 3, .write 1050 4, .append 4, .publish] ++
    replicate 12 .flush ++ [.readFlush 0, .readWrite 0]

/-- Both segments are flushed, and the first is closed once. -/
theorem flush_position_safe_written :
    ∃ s, Reaches (State.step (Slots.ops 2) false 1000) Ordered (State.init Slots.init 950 1) s ∧
      s.logFlushResult = 1050 ∧ s.files.closed 0 = 1 ∧ s.seen = [(1050, 1050)] ∧
      s.logFlushResult ≤ s.files.durable ∧ s.files.misused = false ∧ ∀ p ∈ s.seen, p.1 ≤ p.2 := by
  obtain ⟨s, run, hflush, hclosed, hseen⟩ := exists_reaches_tested
    (State.step (Slots.ops 2) false 1000) Ordered (State.init Slots.init 950 1) writtenRun
    (fun s => s.logFlushResult = 1050 ∧ s.files.closed 0 = 1 ∧ s.seen = [(1050, 1050)]) (by decide)
  have hsafe := flush_position_safe (by decide) (by decide) (by decide) (fun _ => by decide) run
  exact ⟨s, run, hflush, hclosed, hseen, hsafe.2.1, hsafe.2.2.1, hsafe.2.2.2.2.2⟩

/-- A file is open that is not the one written to, and no entry in the ring will close it. -/
def State.Leaks (n : Nat) (s : State (Slots Entry)) : Prop :=
  ∃ fd f, s.files.table fd = some f ∧ s.openLog ≠ some (fd, f.segNo) ∧
    ∀ i < n, (s.ring.slots i).1 = false

/-- A second entry is appended and flushed before its write position is published. -/
def aheadRun : List Op :=
  [.begin 110 110, .write 110 3, .append 3, .publish, .flush, .flush, .begin 120 120, .write 120 3,
    .append 3, .flush, .flush, .flush, .flush, .flush, .flush, .flush, .readFlush 0, .readWrite 0]

/-- With one slot the next entry is the current one, and the finished segment is not closed. -/
def oneSlotRun : List Op :=
  [.begin 1000 1000, .write 1000 3, .append 3, .publish, .flush, .flush, .flush, .flush, .flush,
    .flush, .flush, .begin 1050 1050, .write 1050 4, .append 4, .publish, .flush, .flush, .flush,
    .flush, .flush, .flush, .flush, .flush, .flush]

/-- From a start at a segment boundary the file of the finished segment is opened to be flushed. -/
def boundaryRun : List Op :=
  [.begin 1000 1000, .append 3, .publish, .begin 1020 0, .write 1020 4, .publish, .flush, .flush,
    .flush, .flush, .flush, .flush, .flush]

theorem leaks_of_run {n lsn : Nat} (ops : List Op)
    (h : ((exec (State.step (Slots.ops n) false 1000) (State.init Slots.init lsn 1) ops).any fun s =>
      (s.files.table 3).map File.segNo = some 0 ∧ s.openLog = some (4, 1) ∧
        ∀ i < n, (s.ring.slots i).1 = false) = true) :
    ∃ s, Reaches (State.step (Slots.ops n) false 1000) (fun _ _ => True)
      (State.init Slots.init lsn 1) s ∧ s.Leaks n := by
  obtain ⟨s, run, htable, hopen, hslots⟩ := exists_reaches_any _ _ _ _ h
  obtain ⟨f, hf, -⟩ := Option.map_eq_some_iff.mp htable
  exact ⟨s, run, 3, f, hf, by simp [hopen], hslots⟩

/-- A reader sees a flush position beyond the write position; over one slot, and from a start at a
segment boundary, a file is never closed. -/
theorem flush_position_unsafe :
    (∃ s, Reaches (State.step (Slots.ops 2) false 1000) (fun _ _ => True)
      (State.init Slots.init 100 1) s ∧ (120, 110) ∈ s.seen) ∧
    (∃ s, Reaches (State.step (Slots.ops 1) false 1000) (fun _ _ => True)
      (State.init Slots.init 950 1) s ∧ s.Leaks 1) ∧
    ∃ s, Reaches (State.step (Slots.ops 2) false 1000) (fun _ _ => True)
      (State.init Slots.init 1000 1) s ∧ s.Leaks 2 := by
  obtain ⟨s, run, hseen⟩ := exists_reaches_any (State.step (Slots.ops 2) false 1000)
    (State.init Slots.init 100 1) aheadRun ((120, 110) ∈ ·.seen) (by decide)
  exact ⟨⟨s, run, hseen⟩, leaks_of_run oneSlotRun (by decide), leaks_of_run boundaryRun (by decide)⟩

end Polar.Pipeline.Flush
