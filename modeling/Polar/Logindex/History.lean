import Polar.Base.Run
import Polar.Logindex.Restart

/-!
# Runs of a logindex snapshot

A run records every added entry with the id of the table that took it. When the server starts
again, only the entries of saved tables are left.
-/

namespace Polar.Logindex

/-- A snapshot with the entries it is to hold. -/
structure Logged where
  snapshot : Snapshot
  log : List (Nat × Entry)

namespace Logged

/-- The added entries in order. -/
def entries (st : Logged) : List Entry := st.log.map (·.2)

/-- A new snapshot. -/
def init (memTblSize startLsn : Nat) : Logged := ⟨.init memTblSize startLsn, []⟩

/-- What a call does to the log; `s'` is the snapshot behind the call. -/
def record (st : Logged) (s' : Snapshot) : Snapshot.Op → List (Nat × Entry)
  | .add e => st.log ++ [(s'.maxIdxTableId, e)]
  | .restart _ => st.log.filter (·.1 ≤ st.snapshot.metaData.maxIdxTableId)
  | .flush _ | .truncate _ | .read _ => st.log

/-- A call, with the history that it leaves. -/
def step (tagHash : BufferTag → Nat) (st : Logged) (op : Snapshot.Op) : Option Logged :=
  (st.snapshot.step tagHash op).map fun s' => ⟨s', st.record s' op⟩

/-- What the callers promise: LSNs do not decrease, strictly increase for a page and do not precede
the LSN the snapshot starts from; tables with LSNs from `bound` on are not truncated; only tables
that are there are read. -/
def Ok (start bound : Nat) (st : Logged) : Snapshot.Op → Prop
  | .add e => Ordered (st.entries ++ [e]) ∧ start ≤ e.lsn ∧ invalidLsn < e.lsn ∧ e.lsn < uint64Max
  | .truncate lsn => lsn ≤ bound
  | .read tid =>
    invalidTableId < tid ∧ st.snapshot.metaData.minSegmentInfo.minIdxTableId ≤ tid ∧
      tid ≤ st.snapshot.metaData.maxIdxTableId
  | .flush _ | .restart _ => True

instance (start bound : Nat) (st : Logged) (op : Snapshot.Op) : Decidable (st.Ok start bound op) := by
  unfold Ok Ordered
  split <;> infer_instance

/-- The tables of the snapshot hold the log. -/
def Holds (tagHash : BufferTag → Nat) (start bound : Nat) (st : Logged) : Prop :=
  ∃ hist, Inv tagHash start bound st.snapshot hist ∧ st.log = numbered 1 hist

variable {tagHash : BufferTag → Nat} {start bound : Nat} {st st' : Logged}

theorem step_eq {op : Snapshot.Op} {s' : Snapshot} (h : st.snapshot.step tagHash op = some s') :
    st.step tagHash op = some ⟨s', st.record s' op⟩ := by
  rw [step, h, Option.map_some]

/-- The tables hold the log of a new snapshot. -/
theorem Holds.init {memTblSize : Nat} (hsize : 3 ≤ memTblSize) :
    Holds tagHash start bound (.init memTblSize start) :=
  ⟨[], Inv.init hsize, rfl⟩

/-- Every call succeeds and keeps the log in the tables. -/
theorem Holds.exists_step (h : Holds tagHash start bound st) {op : Snapshot.Op}
    (hok : st.Ok start bound op) :
    ∃ st', st.step tagHash op = some st' ∧ Holds tagHash start bound st' := by
  obtain ⟨hist, hinv, hlog⟩ := h
  have hentries : st.entries = hist.flatten := by
    rw [entries, hlog, numbered_map_snd]
  cases op with
  | add e =>
    obtain ⟨hordered, hstart, hrange⟩ := hok
    rw [hentries] at hordered
    obtain ⟨s', hist', hs', hinv', happends⟩ := hinv.addLsn hordered hrange hstart
    refine ⟨_, step_eq hs', hist', hinv', ?_⟩
    rw [record, happends.numbered, hlog, hinv'.length]
  | flush flushActive =>
    obtain ⟨s', hs', hinv', -⟩ := hinv.flushTable flushActive
    exact ⟨_, step_eq hs', hist, hinv', hlog⟩
  | truncate lsn =>
    obtain ⟨s', hs', hinv', -⟩ := hinv.truncate hok
    exact ⟨_, step_eq hs', hist, hinv', hlog⟩
  | read tid =>
    obtain ⟨hpos, hmin, hle⟩ := hok
    obtain ⟨s', t, free, m, hs', -, -, hinv', -, -⟩ := hinv.readTable hpos hmin hle
    exact ⟨_, step_eq (Option.map_eq_some_iff.mpr ⟨_, hs', rfl⟩), hist, hinv', hlog⟩
  | restart checkpointLsn =>
    obtain ⟨s', hs', hinv', -⟩ := hinv.restart checkpointLsn
    refine ⟨_, step_eq hs', _, hinv', ?_⟩
    rw [record, hlog, filter_numbered_le, restartHist]
    split
    · next hzero =>
      rw [hzero]
      rfl
    · rw [numbered_append]
      exact (List.append_nil _).symm

/-- In every run the tables hold the log. -/
theorem holds_of_reaches {memTblSize : Nat} (hsize : 3 ≤ memTblSize)
    (h : Reaches (step tagHash) (Ok start bound) (.init memTblSize start) st) :
    Holds tagHash start bound st := by
  refine h.invariant _ (.init hsize) fun u op v hu hok hstep => ?_
  obtain ⟨v', hv', hholds⟩ := hu.exists_step hok
  obtain rfl := Option.some.inj (hstep.symm.trans hv')
  exact hholds

end Logged

end Polar.Logindex
