import Mathlib.Data.List.Chain
import Mathlib.Tactic.Ring
import Polar.Pipeline.Flush

/-!
# What the queue of unflushed entries and the open files say about each other

The invariant of the write worker and the flush worker over the queue that the unflushed ring
stands for. The entries of the queue continue each other, each has its file open, and a file is
closed exactly when the entry that ends its segment has been synced.
-/

namespace Polar.Pipeline.Flush

open List Function

variable {openSync : Bool} {segSize : Nat}

/-- The state with the queue of entries in place of the ring. -/
abbrev QState := State (List Entry)

/-- What an entry says about itself. -/
structure Entry.Ok (segSize : Nat) (e : Entry) : Prop where
  start_lt : e.segNo * segSize < e.endLsn
  le_stop : e.endLsn ≤ (e.segNo + 1) * segSize
  needClose_iff : e.needClose = true ↔ e.endLsn = (e.segNo + 1) * segSize

/-- The entry `b` continues the entry `a`. -/
def Follows (a b : Entry) : Prop :=
  a.endLsn ≤ b.endLsn ∧ b.segNo = if a.needClose then a.segNo + 1 else a.segNo

/-- The file of an entry is open and holds what the entry announces. -/
def Backed (table : Nat → Option File) (e : Entry) : Prop :=
  ∃ f, table e.fd = some f ∧ f.segNo = e.segNo ∧ e.endLsn ≤ f.written ∧
    (e.needClose = true → f.written = e.endLsn)

namespace State

/-- The entries whose file is still needed: the flush worker is done with the first one when it is
about to clear its slot. -/
def live (s : QState) : List Entry :=
  match s.flusher with
  | .clear _ => s.ring.tail
  | _ => s.ring

end State

/-- The entries of the queue. -/
structure QueueOk (segSize : Nat) (s : QState) : Prop where
  entry : ∀ e ∈ s.ring, e.Ok segSize
  chain : s.ring.IsChain Follows
  last : ∀ e, s.ring.getLast? = some e → e.endLsn ≤ s.localFlush ∧
    e.endLsn / segSize = s.localFlush / segSize
  backed : ∀ e ∈ s.live, Backed s.files.table e

/-- The open files. -/
structure FilesOk (segSize : Nat) (s : QState) : Prop where
  misused : s.files.misused = false
  unique : ∀ fd fd' f f', s.files.table fd = some f → s.files.table fd' = some f' →
    f.segNo = f'.segNo → fd = fd'
  current : ∀ fd f, s.files.table fd = some f → f.segNo * segSize < s.localWrite ∧
    s.files.opened f.segNo = 1 ∧ s.files.closed f.segNo = 0
  count : ∀ segNo, s.files.closed segNo ≤ s.files.opened segNo ∧ s.files.opened segNo ≤ 1 ∧
    (s.files.opened segNo ≠ 0 → segNo * segSize < s.localWrite)
  cover : ∀ fd f, s.files.table fd = some f →
    (s.openLog = some (fd, f.segNo) ∧ (s.localFlush < s.localWrite ∨ s.localWrite % segSize ≠ 0)) ∨
    ∃ e ∈ s.ring, e.fd = fd ∧ e.segNo = f.segNo ∧ e.needClose = true

/-- The segment of the last byte before `lsn`. -/
def prevSeg (segSize lsn : Nat) : Nat := (lsn - 1) / segSize

section PrevSeg

variable {lsn segNo : Nat}

theorem prevSeg_mul_lt (hpos : 0 < lsn) : prevSeg segSize lsn * segSize < lsn := by
  have := Nat.div_mul_le_self (lsn - 1) segSize
  unfold prevSeg
  omega

theorem prevSeg_eq (hlo : segNo * segSize < lsn) (hhi : lsn ≤ (segNo + 1) * segSize) :
    prevSeg segSize lsn = segNo := by
  exact Nat.div_eq_of_lt_le (by omega) (by omega)

variable (hseg : 0 < segSize)
include hseg

theorem le_prevSeg : lsn ≤ (prevSeg segSize lsn + 1) * segSize := by
  have := Nat.lt_mul_of_div_lt (Nat.lt_add_one ((lsn - 1) / segSize)) hseg
  unfold prevSeg
  omega

theorem lt_succ_div_mul : lsn < (lsn / segSize + 1) * segSize :=
  Nat.lt_mul_of_div_lt (Nat.lt_add_one _) hseg

theorem prevSeg_of_mod_ne (h : lsn % segSize ≠ 0) :
    prevSeg segSize lsn = lsn / segSize := by
  refine prevSeg_eq ?_ (lt_succ_div_mul hseg).le
  have := Nat.div_add_mod lsn segSize
  rw [mul_comm] at this
  omega

theorem mod_eq_zero_iff_prevSeg (hpos : 0 < lsn) :
    lsn % segSize = 0 ↔ lsn = (prevSeg segSize lsn + 1) * segSize := by
  constructor
  · intro h
    obtain ⟨k, rfl⟩ := Nat.dvd_of_mod_eq_zero h
    obtain ⟨k, rfl⟩ : ∃ j, k = j + 1 := by
      refine ⟨k - 1, ?_⟩
      have : k ≠ 0 := by
        rintro rfl
        simp at hpos
      omega
    have : prevSeg segSize (segSize * (k + 1)) = k := by
      refine prevSeg_eq ?_ (le_of_eq (mul_comm _ _))
      rw [mul_comm k, Nat.mul_add_one]
      omega
    rw [this, mul_comm]
  · intro h
    rw [h, Nat.mul_mod_left]

end PrevSeg

/-- The write worker. -/
structure WriterOk (openSync : Bool) (segSize : Nat) (s : QState) : Prop where
  pos : 0 < s.localWrite
  result_le : s.logWriteResult ≤ s.localWrite
  localFlush_le : s.localFlush ≤ s.localWrite
  fresh : s.localFlush = 0 → s.ring = [] ∧
    prevSeg segSize s.localWrite * segSize ≤ s.logFlushResult ∧
    (s.openLog = none → s.localWrite ≤ s.logFlushResult)
  sameSeg : s.localFlush ≠ 0 → s.localFlush < s.localWrite →
    prevSeg segSize s.localWrite = s.localFlush / segSize
  inside : (∀ w f, s.writer ≠ .finishSeg w f) → s.localFlush < s.localWrite →
    (openSync = true → s.openLog ≠ none) → s.localWrite % segSize ≠ 0
  finish : ∀ w f, s.writer = .finishSeg w f →
    s.localWrite % segSize = 0 ∧ s.localFlush < s.localWrite
  notOpen : s.openLog = none → (openSync = false → s.localWrite % segSize ≠ 0) ∧
    (s.localFlush = 0 ∨ s.localFlush = s.localWrite) ∧ s.ring = [] ∧
    (∀ fd, s.files.table fd = none) ∧ ∀ segNo, s.files.opened segNo = 0
  openLog : ∀ fd segNo, s.openLog = some (fd, segNo) → segNo = prevSeg segSize s.localWrite ∧
    (s.localFlush < s.localWrite ∨ s.localWrite % segSize ≠ 0 →
      ∃ f, s.files.table fd = some f ∧ f.segNo = segNo ∧ f.written = s.localWrite)

/-- The file of the entry has no unsynced writes. -/
def Synced (table : Nat → Option File) (e : Entry) : Prop :=
  ∃ f, table e.fd = some f ∧ f.synced = f.written

/-- What the flush worker has established about its current entry. -/
def Phase (s : QState) : Prop :=
  match s.flusher with
  | .idle | .enter => True
  | .look => s.ring ≠ []
  | .sync e flush close stop => ∃ rest, s.ring = e :: rest ∧ close = e.needClose ∧
      (flush = false → close = false ∧ rest ≠ []) ∧ (stop = false → rest ≠ [])
  | .publish e close stop => ∃ rest, s.ring = e :: rest ∧ close = e.needClose ∧
      (stop = false → rest ≠ []) ∧ e.endLsn ≤ s.files.durable ∧
      (close = true → Synced s.files.table e)
  | .close e close stop => ∃ rest, s.ring = e :: rest ∧ close = e.needClose ∧
      (stop = false → rest ≠ []) ∧
      (s.logFlushResult = e.endLsn ∨ e.needClose = false ∧ rest ≠ []) ∧
      (close = true → Synced s.files.table e)
  | .clear stop => ∃ e rest, s.ring = e :: rest ∧ (stop = false → rest ≠ []) ∧
      (s.logFlushResult = e.endLsn ∨ e.needClose = false ∧ rest ≠ []) ∧
      (e.needClose = true → s.files.closed e.segNo ≠ 0)

/-- The flush position. -/
structure FlushOk (segSize : Nat) (s : QState) : Prop where
  phase : Phase s
  le_durable : s.logFlushResult ≤ s.files.durable
  le_write : s.logFlushResult ≤ s.logWriteResult
  head : ∀ e, s.ring.head? = some e →
    s.logFlushResult ≤ e.endLsn ∧ e.segNo * segSize ≤ s.files.durable
  empty : s.ring = [] → s.localFlush ≠ 0 → s.localFlush / segSize * segSize ≤ s.files.durable

/-- The readers. -/
structure ReadersOk (s : QState) : Prop where
  reading : ∀ flush, some flush ∈ s.readers → flush ≤ s.logWriteResult
  seen : ∀ p ∈ s.seen, p.1 ≤ p.2

/-- Where writes are durable, everything written is synced. -/
structure SyncOk (openSync : Bool) (s : QState) : Prop where
  written : openSync = true → s.localWrite ≤ s.files.durable
  synced : openSync = true → ∀ fd f, s.files.table fd = some f →
    f.synced = f.written ∧ f.written ≤ s.files.durable

/-- The invariant of the two workers and the readers. -/
structure Inv (openSync : Bool) (segSize : Nat) (s : QState) : Prop where
  queue : QueueOk segSize s
  files : FilesOk segSize s
  writer : WriterOk openSync segSize s
  flush : FlushOk segSize s
  sync : SyncOk openSync s
  readers : ReadersOk s

theorem Inv.init {lsn readers : Nat} (hpos : 0 < lsn)
    (hstart : openSync = false → lsn % segSize ≠ 0) :
    Inv openSync segSize (State.init [] lsn readers) where
  queue := ⟨by simp [State.init], by simp [State.init], by simp [State.init],
    by simp [State.init, State.live]⟩
  files := ⟨rfl, by simp [State.init], by simp [State.init], by simp [State.init],
    by simp [State.init]⟩
  writer := by
    refine ⟨hpos, le_refl _, Nat.zero_le _, fun _ => ⟨rfl, ?_, fun _ => le_refl _⟩,
      fun h => (h rfl).elim, fun _ _ hsync => hstart ?_, by simp [State.init],
      fun _ => ⟨hstart, .inl rfl, rfl, by simp [State.init], by simp [State.init]⟩,
      by simp [State.init]⟩
    · exact (Nat.div_mul_le_self _ _).trans (Nat.sub_le _ _)
    · exact Bool.eq_false_iff.mpr fun h => hsync h rfl
  flush := ⟨trivial, le_refl _, le_refl _, by simp [State.init], fun _ h => (h rfl).elim⟩
  sync := ⟨fun _ => le_refl _, by simp [State.init]⟩
  readers := ⟨by simp [State.init], by simp [State.init]⟩

section Queue

variable {s : QState} {a b e : Entry} {q : List Entry}

/-- Along the queue the ends do not decrease, and a finished segment is left behind. -/
theorem isChain_follows (h : (a :: q).IsChain Follows) (he : e ∈ q) :
    a.endLsn ≤ e.endLsn ∧ a.segNo ≤ e.segNo ∧ (a.needClose = true → a.segNo < e.segNo) := by
  induction q generalizing a with
  | nil => cases he
  | cons b q ih =>
    obtain ⟨⟨hend, hseg⟩, hq⟩ := isChain_cons_cons.mp h
    have hab : a.segNo ≤ b.segNo ∧ (a.needClose = true → a.segNo < b.segNo) := by
      rw [hseg]
      split <;> simp_all
    obtain rfl | he := mem_cons.mp he
    · exact ⟨hend, hab⟩
    · obtain ⟨h1, h2, -⟩ := ih hq he
      exact ⟨hend.trans h1, hab.1.trans h2, fun hc => (hab.2 hc).trans_le h2⟩

theorem isChain_le_last (h : q.IsChain Follows) (he : e ∈ q) (hb : q.getLast? = some b) :
    e.endLsn ≤ b.endLsn := by
  induction q with
  | nil => cases he
  | cons a q ih =>
    cases q with
    | nil =>
      obtain rfl := mem_singleton.mp he
      obtain rfl : e = b := by simpa using hb
      exact le_refl _
    | cons c q =>
      have hb' : (c :: q).getLast? = some b := by simpa using hb
      obtain rfl | he := mem_cons.mp he
      · exact (isChain_follows h (mem_of_getLast? hb')).1
      · exact ih (isChain_cons_cons.mp h).2 he hb'

theorem QueueOk.le_localFlush (h : QueueOk segSize s) (he : e ∈ s.ring) :
    e.endLsn ≤ s.localFlush := by
  have hne : s.ring ≠ [] := ne_nil_of_mem he
  have hb := List.getLast?_eq_some_getLast hne
  exact (isChain_le_last h.chain he hb).trans (h.last _ hb).1

theorem Entry.Ok.div_eq (h : e.Ok segSize) (hseg : 0 < segSize) :
    e.endLsn / segSize = if e.needClose then e.segNo + 1 else e.segNo := by
  split
  · next hc => rw [h.needClose_iff.mp hc, Nat.mul_div_cancel _ hseg]
  · next hc =>
    have hne : e.endLsn ≠ (e.segNo + 1) * segSize := fun heq => hc (h.needClose_iff.mpr heq)
    have hlo := h.start_lt
    have hhi := h.le_stop
    exact Nat.div_eq_of_lt_le hlo.le (by omega)

end Queue

namespace Inv

variable {s t : QState}

/-- The write worker moves between places that owe no entry. -/
theorem setWriter {w : Writer} (inv : Inv openSync segSize s)
    (hs : ∀ r f, s.writer ≠ .finishSeg r f)
    (hw : ∀ r f, w ≠ .finishSeg r f) : Inv openSync segSize { s with writer := w } where
  queue := { inv.queue with }
  files := { inv.files with }
  writer := { inv.writer with
    inside := fun _ => inv.writer.inside hs, finish := fun r f h => (hw r f h).elim }
  flush := { inv.flush with }
  sync := { inv.sync with }
  readers := { inv.readers with }

theorem publishWrite (inv : Inv openSync segSize s) :
    Inv openSync segSize { s with logWriteResult := s.localWrite } where
  queue := { inv.queue with }
  files := { inv.files with }
  writer := { inv.writer with result_le := le_refl _ }
  flush := { inv.flush with le_write := inv.flush.le_write.trans inv.writer.result_le }
  sync := { inv.sync with }
  readers := ⟨fun f hf => (inv.readers.reading f hf).trans inv.writer.result_le, inv.readers.seen⟩

theorem setReaders {readers : List (Option Nat)} {seen : List (Nat × Nat)}
    (inv : Inv openSync segSize s)
    (hr : ∀ f, some f ∈ readers → f ≤ s.logWriteResult) (hs : ∀ p ∈ seen, p.1 ≤ p.2) :
    Inv openSync segSize { s with readers := readers, seen := seen } where
  queue := { inv.queue with }
  files := { inv.files with }
  writer := { inv.writer with }
  flush := { inv.flush with }
  sync := { inv.sync with }
  readers := ⟨hr, hs⟩

/-- More entries behind the current one do not change what is known about it. -/
theorem phase_append {b : Entry} (h : Phase s) : Phase { s with ring := s.ring ++ [b] } := by
  unfold Phase at h ⊢
  cases hpc : s.flusher with
  | idle | enter => trivial
  | look => simp
  | sync e flush close stop =>
    simp only [hpc] at h
    obtain ⟨rest, hr, h1, h2, h3⟩ := h
    exact ⟨rest ++ [b], by simp [hr], h1, fun hf => ⟨(h2 hf).1, by simp⟩, fun _ => by simp⟩
  | publish e close stop =>
    simp only [hpc] at h
    obtain ⟨rest, hr, h1, h2, h3⟩ := h
    exact ⟨rest ++ [b], by simp [hr], h1, fun _ => by simp, h3⟩
  | close e close stop =>
    simp only [hpc] at h
    obtain ⟨rest, hr, h1, h2, h3, h4⟩ := h
    exact ⟨rest ++ [b], by simp [hr], h1, fun _ => by simp,
      h3.imp_right fun hm => ⟨hm.1, by simp⟩, h4⟩
  | clear stop =>
    simp only [hpc] at h
    obtain ⟨e, rest, hr, h2, h3, h4⟩ := h
    exact ⟨e, rest ++ [b], by simp [hr], fun _ => by simp,
      h3.imp_right fun hm => ⟨hm.1, by simp⟩, h4⟩

theorem live_append {b : Entry} (h : Phase s) :
    State.live { s with ring := s.ring ++ [b] } = s.live ++ [b] := by
  unfold Phase at h
  unfold State.live
  cases hpc : s.flusher with
  | clear stop =>
    simp only [hpc] at h
    obtain ⟨e, rest, hr, -⟩ := h
    simp [hr]
  | idle | enter | look | sync | publish | close => rfl

/-- An entry is appended for what has been written since the last one. -/
theorem append {fd segNo : Nat} {close : Bool} {w : Writer} (hseg : 0 < segSize)
    (inv : Inv openSync segSize s) (hopen : s.openLog = some (fd, segNo))
    (hlt : s.localFlush < s.localWrite) (hclose : close = true ↔ s.localWrite % segSize = 0)
    (hw : ∀ r f, w ≠ .finishSeg r f) :
    Inv openSync segSize { s with
      ring := s.ring ++ [⟨fd, segNo, s.localWrite, close⟩]
      localFlush := s.localWrite, writer := w } := by
  obtain ⟨rfl, hfile⟩ := inv.writer.openLog fd segNo hopen
  obtain ⟨f, hf, hfseg, hfw⟩ := hfile (.inl hlt)
  have hbok : Entry.Ok segSize ⟨fd, prevSeg segSize s.localWrite, s.localWrite, close⟩ :=
    ⟨prevSeg_mul_lt inv.writer.pos, le_prevSeg hseg,
      hclose.trans (mod_eq_zero_iff_prevSeg hseg inv.writer.pos)⟩
  constructor
  · constructor
    · exact forall_mem_append.mpr ⟨inv.queue.entry, forall_mem_singleton.mpr hbok⟩
    · refine isChain_append.mpr ⟨inv.queue.chain, isChain_singleton _, ?_⟩
      intro a ha b hb
      obtain rfl : _ = b := by simpa using hb
      obtain ⟨hle, hdiv⟩ := inv.queue.last a ha
      have hne : s.localFlush ≠ 0 := fun h0 => by simp [(inv.writer.fresh h0).1] at ha
      refine ⟨hle.trans hlt.le, ?_⟩
      rw [inv.writer.sameSeg hne hlt, ← hdiv]
      exact (inv.queue.entry a (mem_of_getLast? ha)).div_eq hseg
    · intro e he
      obtain rfl : _ = e := by simpa using he
      exact ⟨le_refl _, rfl⟩
    · have hlive := live_append (b := ⟨fd, prevSeg segSize s.localWrite, s.localWrite, close⟩)
        inv.flush.phase
      intro e he
      change e ∈ State.live { s with ring := _ } at he
      rw [hlive] at he
      exact forall_mem_append.mpr ⟨inv.queue.backed,
        forall_mem_singleton.mpr ⟨f, hf, hfseg, hfw.ge, fun _ => hfw⟩⟩ e he
  · refine { inv.files with cover := fun fd' f' hf' => ?_ }
    obtain ⟨ho, -⟩ | ⟨e, he, hcov⟩ := inv.files.cover fd' f' hf'
    · obtain ⟨rfl, hs'⟩ : fd = fd' ∧ prevSeg segSize s.localWrite = f'.segNo := by
        simpa [hopen] using ho
      by_cases hmod : s.localWrite % segSize = 0
      · exact .inr ⟨_, mem_append_right _ (mem_singleton_self _), rfl, hs',
          hclose.mpr hmod⟩
      · exact .inl ⟨ho, .inr hmod⟩
    · exact .inr ⟨e, mem_append_left _ he, hcov⟩
  · refine ⟨inv.writer.pos, inv.writer.result_le, le_refl _,
      fun h0 => (inv.writer.pos.ne' h0).elim, fun _ h => (lt_irrefl _ h).elim,
      fun _ h => (lt_irrefl _ h).elim, fun r f' h => (hw r f' h).elim,
      fun h => by simp [hopen] at h, fun fd' segNo' ho => ?_⟩
    exact ⟨(inv.writer.openLog fd' segNo' ho).1, fun _ =>
      (inv.writer.openLog fd' segNo' ho).2 (.inl hlt)⟩
  · refine { inv.flush with
      phase := phase_append inv.flush.phase, head := fun e he => ?_,
      empty := fun h => by simp at h }
    cases hr : s.ring with
    | nil =>
      obtain rfl : _ = e := by simpa [hr] using he
      refine ⟨inv.flush.le_write.trans inv.writer.result_le, ?_⟩
      by_cases h0 : s.localFlush = 0
      · exact (inv.writer.fresh h0).2.1.trans inv.flush.le_durable
      · rw [inv.writer.sameSeg h0 hlt]
        exact inv.flush.empty hr h0
    | cons a q => exact inv.flush.head e (by simpa [hr] using he)
  · exact { inv.sync with }
  · exact { inv.readers with }

/-- Where writes are durable, a flush request only moves the write worker's own position. -/
theorem skipEntry {w : Writer} (hseg : 0 < segSize) (inv : Inv true segSize s)
    (hs : ∀ r f, s.writer ≠ .finishSeg r f) (hlt : s.localFlush < s.localWrite)
    (hw : ∀ r f, w ≠ .finishSeg r f) :
    Inv true segSize { s with localFlush := s.localWrite, writer := w } := by
  have hinside : s.openLog ≠ none → s.localWrite % segSize ≠ 0 := fun ho =>
    inv.writer.inside hs hlt fun _ => ho
  constructor
  · refine { inv.queue with last := fun e he => ?_ }
    obtain ⟨hle, hdiv⟩ := inv.queue.last e he
    have hopen : s.openLog ≠ none := fun ho => by simp [(inv.writer.notOpen ho).2.2.1] at he
    have hne : s.localFlush ≠ 0 := fun h0 => by simp [(inv.writer.fresh h0).1] at he
    refine ⟨hle.trans hlt.le, hdiv.trans ?_⟩
    rw [← inv.writer.sameSeg hne hlt, prevSeg_of_mod_ne hseg (hinside hopen)]
  · refine { inv.files with cover := fun fd f hf => ?_ }
    obtain ⟨ho, -⟩ | hcov := inv.files.cover fd f hf
    · exact .inl ⟨ho, .inr (hinside (by simp [ho]))⟩
    · exact .inr hcov
  · refine ⟨inv.writer.pos, inv.writer.result_le, le_refl _,
      fun h0 => (inv.writer.pos.ne' h0).elim, fun _ h => (lt_irrefl _ h).elim,
      fun _ h => (lt_irrefl _ h).elim, fun r f h => (hw r f h).elim, fun ho => ?_,
      fun fd segNo ho => ?_⟩
    · exact ⟨(inv.writer.notOpen ho).1, .inr rfl, (inv.writer.notOpen ho).2.2⟩
    · exact (inv.writer.openLog fd segNo ho).imp_right fun h _ => h (.inl hlt)
  · refine { inv.flush with empty := fun _ _ => ?_ }
    exact (Nat.div_mul_le_self _ _).trans (inv.sync.written rfl)
  · exact { inv.sync with }
  · exact { inv.readers with }

/-- The first entry may open the file of the segment it starts in. -/
theorem openCurrent {fd : Nat} (inv : Inv false segSize s) (hopen : s.openLog = none) :
    Inv false segSize { s with
      files := s.files.openFile fd (prevSeg segSize s.localWrite) s.localWrite
      openLog := some (fd, prevSeg segSize s.localWrite) } := by
  obtain ⟨hmod, -, hring, hnone, hzero⟩ := inv.writer.notOpen hopen
  have htable : ∀ fd' f, (s.files.openFile fd (prevSeg segSize s.localWrite)
      s.localWrite).table fd' = some f → fd' = fd ∧
        f = ⟨prevSeg segSize s.localWrite, s.localWrite, s.localWrite⟩ := by
    intro fd' f hf
    by_cases hfd : fd' = fd
    · subst hfd
      exact ⟨rfl, by simpa [Files.openFile] using hf.symm⟩
    · simp [Files.openFile, hfd, hnone] at hf
  have hclosed : ∀ g, s.files.closed g = 0 := fun g => by
    have := (inv.files.count g).1
    rw [hzero] at this
    omega
  constructor
  · refine { inv.queue with backed := fun e he => ?_ }
    have hlive : s.live = [] := by
      unfold State.live
      split <;> simp [hring]
    have : e ∈ s.live := he
    simp [hlive] at this
  · refine ⟨inv.files.misused, fun a b f f' ha hb _ => (htable a f ha).1.trans (htable b f' hb).1.symm,
      fun a f ha => ?_, fun g => ?_, fun a f ha => ?_⟩
    · obtain ⟨rfl, rfl⟩ := htable a f ha
      exact ⟨prevSeg_mul_lt inv.writer.pos, by simp [Files.openFile, hzero], hclosed _⟩
    · simp only [Files.openFile, hzero, hclosed, update_apply]
      split
      · next hg => exact ⟨Nat.zero_le _, le_refl _, fun _ => hg ▸ prevSeg_mul_lt inv.writer.pos⟩
      · exact ⟨le_refl _, Nat.zero_le _, fun h => (h rfl).elim⟩
    · obtain ⟨rfl, rfl⟩ := htable a f ha
      exact .inl ⟨rfl, .inr (hmod rfl)⟩
  · refine { inv.writer with
      fresh := fun h0 => (inv.writer.fresh h0).imp_right (·.imp_right fun _ h => by simp at h)
      inside := fun _ _ _ => hmod rfl
      notOpen := fun h => by simp at h, openLog := fun a g ha => ?_ }
    obtain ⟨rfl, rfl⟩ : fd = a ∧ prevSeg segSize s.localWrite = g := by simpa using ha
    exact ⟨rfl, fun _ => ⟨⟨_, s.localWrite, s.localWrite⟩, update_self .., rfl, rfl⟩⟩
  · refine { inv.flush with phase := ?_ }
    have hphase := inv.flush.phase
    unfold Phase at hphase ⊢
    cases hpc : s.flusher <;> simp_all
  · exact ⟨by simp, by simp⟩
  · exact { inv.readers with }

/-- A finished entry has its own file, apart from one that is still written to. -/
theorem fd_ne {e : Entry} {fd : Nat} {f : File} (inv : Inv openSync segSize s) (he : e ∈ s.live)
    (hc : e.needClose = true) (hmem : e ∈ s.ring) (hf : s.files.table fd = some f)
    (hlt : f.written < (f.segNo + 1) * segSize) : e.fd ≠ fd := by
  rintro rfl
  obtain ⟨f', hf', hseg, -, hw⟩ := inv.queue.backed e he
  obtain rfl : f' = f := Option.some.inj (hf'.symm.trans hf)
  have := (inv.queue.entry e hmem).needClose_iff.mp hc
  rw [hw hc, hseg] at hlt
  omega

theorem live_subset {e : Entry} (he : e ∈ s.live) : e ∈ s.ring := by
  unfold State.live at he
  split at he
  · exact mem_of_mem_tail he
  · exact he

end Inv

/-- The descriptor `fd` is the one that the next pages, of segment `segNo`, go to: it is open for
the segment or free, and `opened` counts the segment as opened. -/
structure Target (s : QState) (fd segNo : Nat) (opened : Nat → Nat) : Prop where
  fd_ne : ∀ e ∈ s.live, e.needClose = true → e.fd ≠ fd
  file : ∀ f, s.files.table fd = some f → f.segNo = segNo ∧ f.written = s.localWrite
  other : ∀ fd' f, fd' ≠ fd → s.files.table fd' = some f → f.segNo ≠ segNo ∧
    ∃ e ∈ s.ring, e.fd = fd' ∧ e.segNo = f.segNo ∧ e.needClose = true
  once : opened segNo = 1 ∧ s.files.closed segNo = 0
  rest : ∀ segNo' ≠ segNo, opened segNo' = s.files.opened segNo'

namespace Target

variable {s : QState} {fd segNo upTo synced durable : Nat} {opened : Nat → Nat}

/-- The file of the segment is open. -/
theorem ofOpen {f : File} (inv : Inv openSync segSize s) (hopen : s.openLog = some (fd, segNo))
    (hf : s.files.table fd = some f) (hfs : f.segNo = segNo) (hfw : f.written = s.localWrite)
    (hlt : s.localWrite < (segNo + 1) * segSize) : Target s fd segNo s.files.opened where
  fd_ne e he hc := inv.fd_ne he hc (Inv.live_subset he) hf (by rw [hfw, hfs]; exact hlt)
  file g hg := by
    obtain rfl : f = g := Option.some.inj (hf.symm.trans hg)
    exact ⟨hfs, hfw⟩
  other fd' g hne hg := by
    refine ⟨fun hgs => hne (inv.files.unique fd' fd g f hg hf (hgs.trans hfs.symm)), ?_⟩
    obtain ⟨ho, -⟩ | hcov := inv.files.cover fd' g hg
    · obtain ⟨rfl, -⟩ : fd = fd' ∧ segNo = g.segNo := by simpa [hopen] using ho
      exact (hne rfl).elim
    · exact hcov
  once := hfs ▸ (inv.files.current fd f hf).2
  rest _ _ := rfl

/-- A file is opened for the segment, which has never been opened. -/
theorem ofNew (inv : Inv openSync segSize s) (hnone : s.files.table fd = none)
    (hzero : s.files.opened segNo = 0) (hcov : ∀ fd' f, s.files.table fd' = some f →
      ∃ e ∈ s.ring, e.fd = fd' ∧ e.segNo = f.segNo ∧ e.needClose = true) :
    Target s fd segNo (update s.files.opened segNo 1) where
  fd_ne e he _ heq := by
    obtain ⟨f, hf, -⟩ := inv.queue.backed e he
    simp [heq, hnone] at hf
  file f hf := by simp [hnone] at hf
  other fd' f _ hf := by
    refine ⟨fun hfs => ?_, hcov fd' f hf⟩
    have := (inv.files.current fd' f hf).2.1
    rw [hfs, hzero] at this
    cases this
  once := by
    have := (inv.files.count segNo).1
    exact ⟨by simp, by omega⟩
  rest g hg := by simp [hg]

section

variable (target : Target s fd segNo opened)
include target

/-- The entries keep their files. -/
theorem backed {e : Entry} (he : e ∈ s.live) (hlt : s.localWrite < upTo)
    (h : Backed s.files.table e) :
    Backed (update s.files.table fd (some ⟨segNo, upTo, synced⟩)) e := by
  obtain ⟨f, hf, hfs, hend, hc⟩ := h
  by_cases hfd : e.fd = fd
  · obtain ⟨hseg, hw⟩ := target.file f (hfd ▸ hf)
    refine ⟨⟨segNo, upTo, synced⟩, by rw [hfd, update_self], hseg.symm.trans hfs, ?_,
      fun hn => (target.fd_ne e he hn hfd).elim⟩
    exact (hend.trans_eq hw).trans hlt.le
  · exact ⟨f, by simpa [hfd] using hf, hfs, hend, hc⟩

/-- What the flush worker knows about its entry stays true. -/
theorem phase {files : Files} (hphase : Phase s)
    (htable : files.table = update s.files.table fd (some ⟨segNo, upTo, synced⟩))
    (hdur : s.files.durable ≤ files.durable) (hclosed : files.closed = s.files.closed) :
    Phase { s with files := files } := by
  have hsynced : ∀ e ∈ s.live, e.needClose = true → Synced s.files.table e →
      Synced files.table e := by
    rintro e he hc ⟨f, hf, hs⟩
    exact ⟨f, by simpa [htable, target.fd_ne e he hc] using hf, hs⟩
  unfold Phase at hphase ⊢
  cases hpc : s.flusher with
  | idle | enter => trivial
  | look | sync => simpa [hpc] using hphase
  | clear => simpa [hpc, hclosed] using hphase
  | publish e close stop =>
    simp only [hpc] at hphase ⊢
    obtain ⟨rest, hr, h1, h2, h3, h4⟩ := hphase
    have he : e ∈ s.live := by simp [State.live, hpc, hr]
    exact ⟨rest, hr, h1, h2, h3.trans hdur, fun hc => hsynced e he (h1 ▸ hc) (h4 hc)⟩
  | close e close stop =>
    simp only [hpc] at hphase ⊢
    obtain ⟨rest, hr, h1, h2, h3, h4⟩ := hphase
    have he : e ∈ s.live := by simp [State.live, hpc, hr]
    exact ⟨rest, hr, h1, h2, h3, fun hc => hsynced e he (h1 ▸ hc) (h4 hc)⟩

end

/-- The open files after the write. -/
theorem filesOk {writer : Writer} (target : Target s fd segNo opened) (inv : FilesOk segSize s)
    (hlt : s.localWrite < upTo) (hseg : segNo * segSize < upTo) (hflush : s.localFlush < upTo) :
    FilesOk segSize { s with
      files := { s.files with
        table := update s.files.table fd (some ⟨segNo, upTo, synced⟩)
        opened := opened, durable := durable }
      openLog := some (fd, segNo), localWrite := upTo, writer := writer } := by
  -- an open file is the one written to, or one of before
  have htable : ∀ a f, update s.files.table fd (some ⟨segNo, upTo, synced⟩) a = some f →
      (a = fd ∧ f.segNo = segNo) ∨ (a ≠ fd ∧ s.files.table a = some f) := by
    intro a f ha
    by_cases hfd : a = fd
    · subst hfd
      obtain rfl : _ = f := by simpa using ha
      exact .inl ⟨rfl, rfl⟩
    · exact .inr ⟨hfd, by simpa [hfd] using ha⟩
  refine ⟨inv.misused, fun a b f f' ha hb heq => ?_, fun a f ha => ?_, fun g => ?_, fun a f ha => ?_⟩
  · obtain ⟨rfl, hfs⟩ | ⟨hne, hold⟩ := htable a f ha <;>
      obtain ⟨hfd, hfs'⟩ | ⟨hne', hold'⟩ := htable b f' hb
    · exact hfd.symm
    · exact ((target.other b f' hne' hold').1 (heq.symm.trans hfs)).elim
    · exact ((target.other a f hne hold).1 (heq.trans hfs')).elim
    · exact inv.unique a b f f' hold hold' heq
  · obtain ⟨rfl, hfs⟩ | ⟨hne, ha⟩ := htable a f ha
    · rw [hfs]
      exact ⟨hseg, target.once⟩
    · obtain ⟨h1, h2, h3⟩ := inv.current a f ha
      exact ⟨h1.trans hlt, (target.rest _ (target.other a f hne ha).1).trans h2, h3⟩
  · by_cases hg : g = segNo
    · subst hg
      exact ⟨by simp [target.once], by simp [target.once], fun _ => hseg⟩
    · obtain ⟨h1, h2, h3⟩ := inv.count g
      rw [← target.rest g hg] at h1 h2 h3
      exact ⟨h1, h2, fun h => (h3 h).trans hlt⟩
  · obtain ⟨rfl, hfs⟩ | ⟨hne, ha⟩ := htable a f ha
    · exact .inl ⟨by rw [hfs], .inl hflush⟩
    · exact .inr (target.other a f hne ha).2

end Target

namespace Inv

variable {s : QState}

/-- The write worker after the write. -/
theorem writerOk {fd upTo rqstWrite rqstFlush : Nat} {files : Files} {f : File}
    (hseg : 0 < segSize) (inv : WriterOk openSync segSize s)
    (hw : s.writer = .loop rqstWrite rqstFlush) (hlt : s.localWrite < upTo)
    (hle : upTo ≤ (s.localWrite / segSize + 1) * segSize)
    (hf : files.table fd = some f) (hfs : f.segNo = s.localWrite / segSize)
    (hfw : f.written = upTo) :
    WriterOk openSync segSize { s with
      files := files, openLog := some (fd, s.localWrite / segSize), localWrite := upTo
      writer := if upTo = (s.localWrite / segSize + 1) * segSize
        then .finishSeg rqstWrite rqstFlush else .loop rqstWrite rqstFlush } := by
  generalize hg : s.localWrite / segSize = g at *
  have hgle : g * segSize ≤ s.localWrite := hg ▸ Nat.div_mul_le_self _ _
  have hprev : prevSeg segSize upTo = g := prevSeg_eq (by omega) hle
  have hflt : s.localFlush < upTo := inv.localFlush_le.trans_lt hlt
  -- inside a segment the open file is the one of the next byte
  have hsame : s.localFlush < s.localWrite → s.openLog ≠ none →
      prevSeg segSize s.localWrite = g := fun h ho =>
    (prevSeg_of_mod_ne hseg (inv.inside (by simp [hw]) h fun _ => ho)).trans hg
  refine ⟨by simp only; omega, inv.result_le.trans hlt.le, hflt.le, fun h0 => ?_, fun h0 _ => ?_,
    fun hnot _ _ hmod => ?_, fun r f' hfin => ?_, fun h => by simp at h, fun a g' ha => ?_⟩
  · obtain ⟨hring, hprevLe, hstart⟩ := inv.fresh h0
    refine ⟨hring, ?_, fun h => by simp at h⟩
    simp only [hprev]
    by_cases ho : s.openLog = none
    · exact hgle.trans (hstart ho)
    · exact hsame (h0 ▸ inv.pos) ho ▸ hprevLe
  · simp only [hprev]
    obtain hflush | hflush := inv.localFlush_le.lt_or_eq
    · have ho : s.openLog ≠ none := fun ho => by
        obtain h | h := (inv.notOpen ho).2.1
        · exact h0 h
        · exact hflush.ne h
      exact (hsame hflush ho).symm.trans (inv.sameSeg h0 hflush)
    · rw [hflush, hg]
  · have := (mod_eq_zero_iff_prevSeg hseg (by omega)).mp hmod
    rw [hprev] at this
    exact hnot rqstWrite rqstFlush (if_pos this)
  · by_cases hup : upTo = (g + 1) * segSize
    · exact ⟨by simp [hup], hflt⟩
    · simp [hup] at hfin
  · obtain ⟨rfl, rfl⟩ : fd = a ∧ g = g' := by simpa using ha
    exact ⟨hprev.symm, fun _ => ⟨f, hf, hfs, hfw⟩⟩

/-- Pages are written to the file of the segment, which is the open one or a new one. -/
theorem write {fd upTo rqstWrite rqstFlush durable : Nat} {opened : Nat → Nat} (synced : Nat)
    (hseg : 0 < segSize) (inv : Inv openSync segSize s)
    (hw : s.writer = .loop rqstWrite rqstFlush) (hlt : s.localWrite < upTo)
    (hle : upTo ≤ (s.localWrite / segSize + 1) * segSize)
    (target : Target s fd (s.localWrite / segSize) opened) (hdur : s.files.durable ≤ durable)
    (hsync : openSync = true → synced = upTo ∧ upTo ≤ durable) :
    Inv openSync segSize { s with
      files := { s.files with
        table := update s.files.table fd (some ⟨s.localWrite / segSize, upTo, synced⟩)
        opened := opened, durable := durable }
      openLog := some (fd, s.localWrite / segSize), localWrite := upTo
      writer := if upTo = (s.localWrite / segSize + 1) * segSize
        then .finishSeg rqstWrite rqstFlush else .loop rqstWrite rqstFlush } := by
  have hstart : s.localWrite / segSize * segSize < upTo :=
    (Nat.div_mul_le_self _ _).trans_lt hlt
  have hflush : s.localFlush < upTo := inv.writer.localFlush_le.trans_lt hlt
  constructor
  · exact { inv.queue with
      backed := fun e he => target.backed he hlt (inv.queue.backed e he) }
  · exact target.filesOk inv.files hlt hstart hflush
  · exact writerOk hseg inv.writer hw hlt hle (update_self ..) rfl rfl
  · exact { inv.flush with
      phase := target.phase inv.flush.phase rfl hdur rfl
      le_durable := inv.flush.le_durable.trans hdur
      head := fun e he => (inv.flush.head e he).imp_right fun h => h.trans hdur
      empty := fun hr h0 => (inv.flush.empty hr h0).trans hdur }
  · refine ⟨fun h => (hsync h).2, fun h a f ha => ?_⟩
    by_cases hfd : a = fd
    · subst hfd
      obtain rfl : _ = f := by simpa using ha
      exact hsync h
    · exact (inv.sync.synced h a f (by simpa [hfd] using ha)).imp_right fun h => h.trans hdur
  · exact { inv.readers with }

end Inv

end Polar.Pipeline.Flush
