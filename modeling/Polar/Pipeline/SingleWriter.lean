import Mathlib.Order.Nat
import Polar.Base.Run

/-!
# Who writes the WAL

With the pipeliner ready, a backend that replaces a WAL buffer page in `AdvanceXLInsertBuffer`
waits in `polar_wal_pipeline_commit_wait` for the flush of the page and then reads the positions
again; it calls `XLogWrite` itself when the write position it reads is still behind the page.
Whether it can be behind depends on the order in which `logWriteResult` and `logFlushResult` are
published: by the write worker alone up to mode 3, by two threads in modes 4 and 5.
-/

namespace Polar.Pipeline.SingleWriter

open Option

/-- Where a backend is. `page` is `OldPageRqstPtr`. -/
inductive Pc where
  | idle
  /-- In `AdvanceXLInsertBuffer`, between the two reads of `RefreshXLogWriteResult`. -/
  | refresh (page : Nat)
  /-- In `polar_wal_pipeline_commit_wait`, from `AdvanceXLInsertBuffer`. -/
  | commitWait (page : Nat)
  /-- Has returned from `polar_wal_pipeline_commit_wait`. -/
  | returned (page : Nat)
  /-- Between the two reads of the second `RefreshXLogWriteResult`. -/
  | recheck (page : Nat)
  /-- "Have to write it ourselves". -/
  | xlogWrite (page : Nat)
  /-- In `polar_wal_pipeline_commit_wait`, from `XLogFlush`. -/
  | xlogFlush (record : Nat)
  deriving DecidableEq, Repr

/-- A backend with its `LogwrtResult.Flush`. -/
structure Backend where
  pc : Pc
  flush : Nat
  deriving DecidableEq, Repr

/-- Where the write worker is. -/
inductive Writer where
  | idle
  /-- In `XLogWrite`; `write` is its `LogwrtResult.Write`. -/
  | writing (write : Nat)
  /-- Has published the write position and is going to publish `flush`. -/
  | publishing (flush : Nat)
  deriving DecidableEq, Repr

/-- The two positions, the workers and the backends. -/
structure State where
  logWriteResult : Nat
  logFlushResult : Nat
  writer : Writer
  /-- The ends of the entries of the unflushed ring. -/
  unflushed : List Nat
  /-- The flush worker is in `polar_wal_pipeline_flush_internal`. -/
  flushing : Bool
  backends : List Backend
  deriving DecidableEq, Repr

/-- One step of a worker or of a backend. -/
inductive Op where
  /-- The write worker begins `XLogWrite` and has written up to `write`. -/
  | write (write : Nat)
  /-- `polar_wal_pipeline_unflushed_xlog_append`, in modes 4 and 5. -/
  | append (endLsn : Nat)
  /-- The write worker publishes the write position; up to mode 3 it has flushed up to `flush`. -/
  | publishWrite (flush : Nat)
  | publishFlush
  /-- `polar_wal_pipeline_flush` finds the flush position behind the write position. -/
  | flush
  /-- One turn of the loop of `polar_wal_pipeline_flush_internal`. -/
  | flushEntry (merge : Bool)
  | replacePage (i page : Nat)
  | xlogFlush (i record : Nat)
  | backend (i : Nat)
  deriving Repr

namespace State

/-- All is flushed up to `lsn`. -/
def init (lsn backends : Nat) : State :=
  { logWriteResult := lsn, logFlushResult := lsn, writer := .idle, unflushed := [],
    flushing := false, backends := List.replicate backends { pc := .idle, flush := 0 } }

def setBackend (s : State) (i : Nat) (b : Backend) : State :=
  { s with backends := s.backends.set i b }

/-- A step of a backend. -/
def backendStep (s : State) (b : Backend) : Option Backend :=
  match b.pc with
  | .idle => none
  | .refresh page =>
    some { b with pc := if page ≤ s.logWriteResult then .idle else .commitWait page }
  | .commitWait page =>
    if page ≤ b.flush then some { b with pc := .returned page }
    else some { b with flush := s.logFlushResult }
  | .returned page => some { pc := .recheck page, flush := s.logFlushResult }
  | .recheck page =>
    some { b with pc := if page ≤ s.logWriteResult then .idle else .xlogWrite page }
  | .xlogWrite _ => none
  | .xlogFlush record =>
    if record ≤ b.flush then some { b with pc := .idle }
    else some { b with flush := s.logFlushResult }

/-- A step of the system. -/
def step (mode : Nat) (s : State) : Op → Option State
  | .write write =>
    if s.writer = .idle ∧ s.logWriteResult ≤ write then
      some { s with writer := .writing write }
    else none
  | .append endLsn =>
    match s.writer with
    | .writing write =>
      if 3 < mode ∧ endLsn ≤ write then
        some { s with unflushed := s.unflushed ++ [endLsn] }
      else none
    | _ => none
  | .publishWrite flush =>
    match s.writer with
    | .writing write =>
      if 3 < mode then some { s with logWriteResult := write, writer := .idle }
      else if s.logFlushResult ≤ flush ∧ flush ≤ write then
        some { s with logWriteResult := write, writer := .publishing flush }
      else none
    | _ => none
  | .publishFlush =>
    match s.writer with
    | .publishing flush => some { s with logFlushResult := flush, writer := .idle }
    | _ => none
  | .flush =>
    if 3 < mode ∧ s.flushing = false ∧ s.logFlushResult < s.logWriteResult then
      some { s with flushing := !s.unflushed.isEmpty }
    else none
  | .flushEntry merge =>
    match s.flushing, s.unflushed with
    | true, [endLsn] =>
      some { s with logFlushResult := endLsn, unflushed := [], flushing := false }
    | true, endLsn :: next :: rest =>
      some { s with
        logFlushResult := if merge then s.logFlushResult else endLsn,
        unflushed := next :: rest }
    | _, _ => none
  | .replacePage i page =>
    match s.backends[i]? with
    | some ⟨.idle, _⟩ =>
      some (s.setBackend i { pc := .refresh page, flush := s.logFlushResult })
    | _ => none
  | .xlogFlush i record =>
    match s.backends[i]? with
    | some ⟨.idle, flush⟩ => some (s.setBackend i { pc := .xlogFlush record, flush := flush })
    | _ => none
  | .backend i => do
      let b ← s.backends[i]?
      let b ← s.backendStep b
      return s.setBackend i b

/-- Some backend executes `XLogWrite`. -/
def BackendWrites (s : State) : Prop := ∃ b ∈ s.backends, ∃ page, b.pc = .xlogWrite page

end State

/-- The states of a mode, with any number of backends. -/
def Reachable (mode : Nat) (s : State) : Prop :=
  ∃ lsn backends, Reaches (State.step mode) (fun _ _ => True) (State.init lsn backends) s

/-- What a backend may rely on when the flush position trails the write position. -/
def Backend.Ok (flushed : Nat) (b : Backend) : Prop :=
  b.flush ≤ flushed ∧
    match b.pc with
    | .returned page | .recheck page => page ≤ flushed
    | .xlogWrite _ => False
    | _ => True

theorem Backend.Ok.mono {m n : Nat} {b : Backend} (h : b.Ok m) (hmn : m ≤ n) : b.Ok n := by
  obtain ⟨pc, flush⟩ := b
  obtain ⟨hflush, hpc⟩ := h
  refine ⟨hflush.trans hmn, ?_⟩
  cases pc <;> first | exact hpc | exact le_trans hpc hmn

/-- The flush position never overtakes the write position, and nobody is misled by it. -/
structure Trails (s : State) : Prop where
  flush_le : s.logFlushResult ≤ s.logWriteResult
  writing : ∀ write, s.writer = .writing write → s.logWriteResult ≤ write
  publishing : ∀ flush, s.writer = .publishing flush →
    s.logFlushResult ≤ flush ∧ flush ≤ s.logWriteResult
  notFlushing : s.flushing = false
  backends : ∀ b ∈ s.backends, b.Ok s.logFlushResult

namespace Trails

variable {mode : Nat} {s t : State}

theorem init (lsn backends : Nat) : Trails (State.init lsn backends) where
  flush_le := le_refl _
  writing := by simp [State.init]
  publishing := by simp [State.init]
  notFlushing := rfl
  backends := by
    intro b hb
    obtain ⟨_, rfl⟩ := List.mem_replicate.mp hb
    exact ⟨Nat.zero_le _, trivial⟩

theorem setBackend {i : Nat} {b : Backend} (h : Trails s) (hb : b.Ok s.logFlushResult) :
    Trails (s.setBackend i b) := by
  refine { h with backends := fun c hc => ?_ }
  obtain hc | rfl := List.mem_or_eq_of_mem_set hc
  · exact h.backends c hc
  · exact hb

/-- A backend that has seen its page flushed finds it written. -/
theorem backendStep {b c : Backend} (h : Trails s) (hb : b.Ok s.logFlushResult)
    (hc : s.backendStep b = some c) : c.Ok s.logFlushResult := by
  obtain ⟨pc, flush⟩ := b
  obtain ⟨hflush, hpc⟩ := hb
  cases pc with
  | idle | xlogWrite page => simp [State.backendStep] at hc
  | refresh page =>
    simp only [State.backendStep, some.injEq] at hc
    subst hc
    by_cases hpage : page ≤ s.logWriteResult
    · simp only [if_pos hpage]
      exact ⟨hflush, trivial⟩
    · simp only [if_neg hpage]
      exact ⟨hflush, trivial⟩
  | commitWait page =>
    simp only [State.backendStep] at hc
    split at hc
    · next hpage =>
      cases hc
      exact ⟨hflush, le_trans hpage hflush⟩
    · cases hc
      exact ⟨le_refl _, trivial⟩
  | returned page =>
    simp only [State.backendStep, some.injEq] at hc
    subst hc
    exact ⟨le_refl _, hpc⟩
  | recheck page =>
    simp only [State.backendStep, some.injEq] at hc
    subst hc
    have hpage : page ≤ s.logWriteResult := le_trans hpc h.flush_le
    simp only [if_pos hpage]
    exact ⟨hflush, trivial⟩
  | xlogFlush record =>
    simp only [State.backendStep] at hc
    split at hc <;> cases hc
    · exact ⟨hflush, trivial⟩
    · exact ⟨le_refl _, trivial⟩

/-- Up to mode 3 every step keeps the order of the positions. -/
theorem step {op : Op} (hmode : mode ≤ 3) (h : Trails s) (hs : s.step mode op = some t) :
    Trails t := by
  have hnot : ¬ 3 < mode := Nat.not_lt.mpr hmode
  cases op <;> simp only [State.step] at hs
  case write write =>
    split at hs
    · next hw =>
      cases hs
      refine { h with writing := fun w hw' => ?_, publishing := by simp }
      obtain rfl := Writer.writing.inj hw'
      exact hw.2
    · cases hs
  case append endLsn =>
    split at hs
    · simp [hnot] at hs
    · cases hs
  case publishWrite flush =>
    split at hs
    · next write hw =>
      simp only [if_neg hnot] at hs
      obtain ⟨hf, ⟨⟩⟩ := ite_none_right_eq_some.mp hs
      have hle := h.writing write hw
      refine ⟨h.flush_le.trans hle, by simp, fun f hf' => ?_, h.notFlushing, h.backends⟩
      obtain rfl := Writer.publishing.inj hf'
      exact hf
    · cases hs
  case publishFlush =>
    split at hs
    · next flush hw =>
      cases hs
      obtain ⟨hup, hle⟩ := h.publishing flush hw
      exact ⟨hle, by simp, by simp, h.notFlushing, fun b hb => (h.backends b hb).mono hup⟩
    · cases hs
  case flush =>
    simp [hnot] at hs
  case flushEntry merge =>
    simp [h.notFlushing] at hs
  case replacePage i page =>
    split at hs <;> cases hs
    exact h.setBackend ⟨le_refl _, trivial⟩
  case xlogFlush i record =>
    split at hs
    · next flush hb =>
      cases hs
      exact h.setBackend ⟨(h.backends _ (List.mem_of_getElem? hb)).1, trivial⟩
    · cases hs
  case backend i =>
    obtain ⟨b, hb, hs⟩ := bind_eq_some_iff.mp hs
    obtain ⟨c, hc, hs⟩ := bind_eq_some_iff.mp hs
    cases hs
    exact h.setBackend (h.backendStep (h.backends b (List.mem_of_getElem? hb)) hc)

theorem not_backendWrites (h : Trails s) : ¬ s.BackendWrites := by
  rintro ⟨b, hb, page, hpc⟩
  have := (h.backends b hb).2
  simp [hpc] at this

end Trails

/-- The flush worker is busy with the entry of a first write when the entry of a second one is
appended; it flushes both before the write worker publishes the second. -/
def twoWritersRun : List Op :=
  [.write 110, .append 110, .publishWrite 0, .flush, .write 120, .append 120, .replacePage 0 120,
    .backend 0, .flushEntry true, .flushEntry false, .backend 0, .backend 0, .backend 0, .backend 0]

theorem twoWritersRun_writes (mode : Nat) (hmode : 3 < mode) :
    ∃ s, Reachable mode s ∧ s.BackendWrites := by
  obtain ⟨s, hs, hb⟩ : ∃ s, exec (State.step mode) (State.init 100 1) twoWritersRun = some s ∧
      s.backends = [⟨.xlogWrite 120, 120⟩] := by
    simp [twoWritersRun, exec, State.step, State.init, State.setBackend, State.backendStep, hmode]
  refine ⟨s, ⟨100, 1, reaches_of_exec hs fun _ _ _ => trivial⟩, ⟨.xlogWrite 120, 120⟩, ?_, 120, rfl⟩
  simp [hb]

/-- In modes 1 to 5 only the write worker ever executes `XLogWrite` exactly when the mode is at
most 3. -/
theorem only_writer_writes_iff (mode : Nat) (_ : 1 ≤ mode ∧ mode ≤ 5) :
    (∀ s, Reachable mode s → ¬ s.BackendWrites) ↔ mode ≤ 3 := by
  constructor
  · intro hnever
    by_contra hgt
    obtain ⟨s, hs, hwrites⟩ := twoWritersRun_writes mode (Nat.lt_of_not_le hgt)
    exact hnever s hs hwrites
  · rintro hmode s ⟨lsn, backends, run⟩
    have h : Trails s :=
      run.invariant Trails (.init lsn backends) fun _ _ _ h _ hs => h.step hmode hs
    exact h.not_backendWrites

/-- In mode 1 only the write worker writes. -/
theorem only_writer_writes_mode1 :
    (1 ≤ 1 ∧ 1 ≤ 5) ∧ ((∀ s, Reachable 1 s → ¬ s.BackendWrites) ↔ 1 ≤ 3) :=
  ⟨by decide, only_writer_writes_iff 1 (by decide)⟩

/-- In modes 4 and 5 a backend can be the second writer. -/
theorem backend_writes_modes4and5 :
    (∃ s, Reachable 4 s ∧ s.BackendWrites) ∧ ∃ s, Reachable 5 s ∧ s.BackendWrites :=
  ⟨twoWritersRun_writes 4 (by decide), twoWritersRun_writes 5 (by decide)⟩

end Polar.Pipeline.SingleWriter
