import Polar.Logindex.Adding

/-!
# Starting again from the files

`polar_load_logindex_snapshot_from_storage` puts the newest saved tables into the ring and opens a
table behind them. The log is then the saved runs.
-/

namespace Polar.Logindex

variable {tagHash : BufferTag → Nat} {start bound : Nat} {s : Snapshot} {hist : List (List Entry)}

/-- A new snapshot holds nothing. -/
theorem Inv.init {memTblSize : Nat} (hsize : 3 ≤ memTblSize) :
    Inv tagHash start bound (.init memTblSize start) [] where
  size := hsize
  length := rfl
  saved_le := le_rfl
  slots _ _ := rfl
  live _ hlt hle := absurd hlt (Nat.not_lt.mpr hle)
  disk _ hpos _ hle := absurd hpos (Nat.not_lt.mpr hle)
  noTableZero := rfl
  filled _ _ hlt := absurd hlt (Nat.not_lt_zero _)
  ordered := List.Pairwise.nil
  range _ he := absurd he List.not_mem_nil
  metaOk :=
    { maxLsn := rfl, startLsn := rfl, unsaved := fun _ => rfl
      minIdx := fun hpos => absurd hpos (Nat.not_lt_zero _)
      minIdx_le := le_rfl
      segmentMax := fun _ hpos hle => absurd hpos (Nat.not_lt.mpr hle)
      cut := fun _ hlt => absurd hlt (Nat.not_lt_zero _) }
  metaFile := rfl
  active hne := absurd rfl hne
  first _ := ⟨rfl, rfl⟩
  fresh hne := absurd rfl hne

section

variable (h : Core tagHash start bound s hist)
include h

/-- The snapshot of the saved runs before any table is loaded. -/
theorem Core.reset (activeTable maxLsn : Nat) :
    Core tagHash start bound
      { s with
        memTable := fun _ => .zero, activeTable, maxIdxTableId := s.metaData.maxIdxTableId, maxLsn,
        adding := false }
      (hist.take s.metaData.maxIdxTableId) := by
  have hlength : (hist.take s.metaData.maxIdxTableId).length = s.metaData.maxIdxTableId :=
    List.length_take_of_le h.saved_le
  have hsub : (hist.take s.metaData.maxIdxTableId).flatten.Sublist hist.flatten :=
    (List.take_prefix _ _).flatten.sublist
  refine
    { size := h.size, length := hlength.symm, saved_le := le_of_eq hlength.symm
      slots := fun _ _ => rfl, live := ?_, disk := ?_, noTableZero := h.noTableZero, filled := ?_
      ordered := h.ordered.sublist hsub, range := fun e he => h.range e (hsub.mem he)
      metaOk := h.metaOk.congr (by rw [List.take_take, Nat.min_self]), metaFile := h.metaFile }
  · intro tid hlt hle
    exact absurd hlt (Nat.not_lt.mpr (hlength ▸ hle))
  · intro tid hpos hmin hle
    exact (h.disk tid hpos hmin hle).congr (runAt_take hle)
  · intro tid hpos hlt
    rw [hlength] at hlt
    rw [runAt_take (le_of_lt hlt)]
    exact h.filled tid hpos (lt_of_lt_of_le hlt h.saved_le)

/-- No slot holds a table that is still to save. -/
def Clean (s : Snapshot) : Prop :=
  ∀ mid, (s.memTable mid).state = .free ∨ (s.memTable mid).state = .flushed

theorem Core.loadTables (hclean : Clean s) {minTid tid : Nat}
    (checkpointLsn : Nat) (hmin : s.metaData.minSegmentInfo.minIdxTableId ≤ minTid)
    (hle : tid ≤ s.metaData.maxIdxTableId) :
    ∃ memTable, Snapshot.loadTables minTid checkpointLsn tid s = some { s with memTable } ∧
      Core tagHash start bound { s with memTable } hist ∧ Clean { s with memTable } := by
  induction tid generalizing s with
  | zero => exact ⟨s.memTable, rfl, h, hclean⟩
  | succ tid ih =>
    rw [Snapshot.loadTables]
    split
    · exact ⟨s.memTable, rfl, h, hclean⟩
    · next hge =>
      obtain ⟨t, free, ht, hstores⟩ := (h.disk (tid + 1) (Nat.succ_pos _) (by omega) hle).table
      rw [ht, Option.bind_some]
      have hcore := h.cache (m := { freeHead := memTblSegNum, state := .flushed, data := t })
        (hclean _) rfl (Nat.succ_pos _) hle hstores
      have hclean' : Clean (s.setMemTable (slotOf s.memTblSize (tid + 1))
          { freeHead := memTblSegNum, state := .flushed, data := t }) := by
        intro mid
        by_cases heq : mid = slotOf s.memTblSize (tid + 1)
        · rw [heq, Snapshot.setMemTable_self]
          exact .inr rfl
        · rw [Snapshot.setMemTable_of_ne _ _ heq]
          exact hclean mid
      split
      · exact ⟨_, rfl, hcore, hclean'⟩
      · exact ih hcore hclean' hmin (Nat.le_of_succ_le hle)

theorem Core.minIdx_le_loadMinTid :
    s.metaData.minSegmentInfo.minIdxTableId ≤ Snapshot.loadMinTid s.memTblSize s.metaData := by
  have hle := h.metaOk.minIdx_le
  simp only [Snapshot.loadMinTid]
  split <;> split <;> omega

/-- The runs of a snapshot that starts again. -/
def restartHist (s : Snapshot) (hist : List (List Entry)) : List (List Entry) :=
  if s.metaData.maxIdxTableId = invalidTableId then []
  else hist.take s.metaData.maxIdxTableId ++ [[]]

omit h in
/-- The active table is not saved. -/
theorem Inv.saved_lt (h : Inv tagHash start bound s hist) (hne : hist ≠ []) :
    s.metaData.maxIdxTableId < hist.length := by
  obtain ⟨hactive, hstate⟩ := h.active hne
  obtain ⟨htid, hu⟩ := (h.slots _ h.activeTable_lt).of_active hstate
  exact htid ▸ hu.saved_lt

/-- The table opened behind the saved ones. -/
theorem Core.reopen (hclean : Clean s)
    (hfilled : ∀ tid, 0 < tid → tid ≤ hist.length → runAt hist tid ≠ [])
    (hactive : s.activeTable = slotOf s.memTblSize (hist.length + 1)) :
    ∃ s', s.waitActive s.activeTable invalidLsn = some s' ∧
      Inv tagHash start bound s' (hist ++ [[]]) ∧ s'.adding = s.adding := by
  have hnone : ∀ mid < s.memTblSize, (s.memTable mid).state ≠ .active := by
    intro mid _ hstate
    rcases hclean mid with hother | hother <;> simp [hstate] at hother
  obtain ⟨s', hwait, hcore, hnew, hsize', hactive', hadding⟩ :=
    h.waitActive invalidLsn hnone hfilled
  rw [← hactive] at hwait hnew
  refine ⟨s', hwait, { hcore with active := fun _ => ⟨?_, ?_⟩, first := ?_, fresh := ?_ }, hadding⟩
  · rw [hactive', hactive, hsize', List.length_append]
    rfl
  · rw [hactive', hnew]
    rfl
  · intro hnil
    simp at hnil
  · intro _ _
    rw [hactive', hnew]
    rfl

end

/-- Starting again keeps the saved runs. -/
theorem Inv.restart (h : Inv tagHash start bound s hist) (checkpointLsn : Nat) :
    ∃ s', s.restart checkpointLsn = some s' ∧
      Inv tagHash start bound s' (restartHist s hist) ∧ s'.adding = false := by
  have hreset := h.toCore.reset (s.metaData.maxIdxTableId % s.memTblSize) s.metaData.maxLsn
  simp only [Snapshot.restart, h.metaFile]
  by_cases hzero : s.metaData.maxIdxTableId = invalidTableId
  · rw [if_pos hzero, restartHist, if_pos hzero]
    have hnil : hist.take s.metaData.maxIdxTableId = [] := by
      rw [hzero]
      rfl
    rw [hnil] at hreset
    refine ⟨_, rfl, { hreset with
      active := fun hne => absurd rfl hne
      first := fun _ => ⟨?_, rfl⟩
      fresh := fun hne => absurd rfl hne }, rfl⟩
    rw [hzero]
    exact Nat.zero_mod _
  · rw [if_neg hzero, restartHist, if_neg hzero]
    have hlength : (hist.take s.metaData.maxIdxTableId).length = s.metaData.maxIdxTableId :=
      List.length_take_of_le h.saved_le
    obtain ⟨memTable, hload, hcore, hclean⟩ := hreset.loadTables (fun _ => .inl rfl)
      checkpointLsn h.toCore.minIdx_le_loadMinTid le_rfl
    rw [hload]
    refine Core.reopen { hcore with } hclean ?_ ?_
    · intro tid htid hle
      rw [hlength] at hle
      rw [runAt_take hle]
      refine h.filled tid htid (lt_of_le_of_lt hle (h.saved_lt ?_))
      rintro rfl
      exact hzero (Nat.le_zero.mp h.saved_le)
    · rw [hlength]
      rfl

end Polar.Logindex
