import Polar.Logindex.Invariant

/-!
# Calls keep the contents of a snapshot

Every call keeps `Inv`. An insertion appends its entry to the log; it may close the active table,
reclaim the next slot and open a new table there. Flushing, truncating and reading leave the log
as it is.
-/

namespace Polar.Logindex

variable {tagHash : BufferTag → Nat} {start bound : Nat} {s : Snapshot} {hist : List (List Entry)}

namespace Core

/-- A live table's slot is neither free nor flushed. -/
theorem not_live_of_state (h : Core tagHash start bound s hist) {mid tid : Nat}
    (hstate : (s.memTable mid).state = .free ∨ (s.memTable mid).state = .flushed)
    (hsaved : s.metaData.maxIdxTableId < tid) (hle : tid ≤ hist.length) :
    slotOf s.memTblSize tid ≠ mid := by
  intro heq
  obtain ⟨-, hlive⟩ := h.live tid hsaved hle
  rw [heq] at hlive
  rcases hstate with hstate | hstate <;> simp [hstate] at hlive

/-! ## Flushing -/

/-- Saving the active table leaves it active. -/
theorem writeTable_active (h : Core tagHash start bound s hist) {mid : Nat}
    (hmid : mid < s.memTblSize) (hstate : (s.memTable mid).state = .active)
    (htid : (s.memTable mid).data.idxTableId = s.metaData.maxIdxTableId + 1) :
    ∃ s', s.writeTable mid = some s' ∧ Core tagHash start bound s' hist ∧
      s'.memTable = s.memTable ∧ s'.metaData = s.metaData ∧ Beside mid s s' := by
  obtain ⟨-, hu⟩ := (h.slots mid hmid).of_active hstate
  have hstores := hu.stores
  rw [htid] at hstores
  obtain ⟨storage, hdata, hcore, -⟩ := h.writeTableData rfl hstores
  refine ⟨{ s with storage }, ?_, hcore, rfl, rfl, rfl, fun _ _ => rfl, rfl, rfl, rfl⟩
  rw [Snapshot.writeTable, if_pos htid, hdata, Option.map_some]
  simp only [hstate, if_true]

end Core

/-- A step beside the active table keeps the state between calls. -/
theorem Inv.of_core {s' : Snapshot} (h : Inv tagHash start bound s hist)
    (hcore : Core tagHash start bound s' hist) (hsize : s'.memTblSize = s.memTblSize)
    (hactive : s'.activeTable = s.activeTable)
    (hmem : s'.memTable s.activeTable = s.memTable s.activeTable) :
    Inv tagHash start bound s' hist where
  toCore := hcore
  active hne := by
    rw [hactive, hsize, hmem]
    exact h.active hne
  first hnil := by
    obtain ⟨hzero, hfree⟩ := h.first hnil
    rw [hzero] at hmem
    rw [hactive, hmem]
    exact ⟨hzero, hfree⟩
  fresh hne hempty := by
    rw [hactive, hmem]
    exact h.fresh hne hempty

section

variable (h : Inv tagHash start bound s hist)
include h

/-- The slot of the active table is not one that is inactive or flushed. -/
theorem Inv.activeTable_ne {mid : Nat}
    (hstate : (s.memTable mid).state = .inactive ∨ (s.memTable mid).state = .flushed) :
    s.activeTable ≠ mid := by
  rintro rfl
  by_cases hnil : hist = []
  · obtain ⟨hzero, hfree⟩ := h.first hnil
    rw [hzero, hfree] at hstate
    simp at hstate
  · rw [(h.active hnil).2] at hstate
    simp at hstate

/-- Tables are saved. -/
theorem Inv.flushTable (flushActive : Bool) :
    ∃ s', s.flushTable flushActive = some s' ∧ Inv tagHash start bound s' hist ∧
      s'.adding = s.adding := by
  have hsize := h.size
  have hmid : s.metaData.maxIdxTableId % s.memTblSize < s.memTblSize := Nat.mod_lt _ (by omega)
  have hslot : slotOf s.memTblSize (s.metaData.maxIdxTableId + 1) =
      s.metaData.maxIdxTableId % s.memTblSize := slotOf_pos (Nat.succ_pos _)
  generalize hm : s.metaData.maxIdxTableId % s.memTblSize = mid at hmid hslot
  rw [Snapshot.flushTable, hm]
  -- A table in that slot that is not saved is the next one to save.
  have htid : Unsaved tagHash s.memTblSize s.metaData.maxIdxTableId hist mid (s.memTable mid) →
      (s.memTable mid).data.idxTableId = s.metaData.maxIdxTableId + 1 := by
    intro hu
    have hwindow := h.window
    have hle := hu.le_length
    exact slotOf_inj hsize (hu.slot.trans hslot.symm) hu.saved_lt (by omega) (by omega) (by omega)
  split
  · next hflush =>
    rcases hflush with hstate | ⟨-, hstate, -⟩
    · obtain ⟨-, hu⟩ := (h.slots mid hmid).of_inactive hstate
      obtain ⟨s', hs', hcore, -, hbeside⟩ := h.toCore.writeTable hmid hstate (htid hu)
      refine ⟨s', hs', h.of_core hcore hbeside.memTblSize hbeside.activeTable ?_, hbeside.adding⟩
      exact hbeside.memTable _ (h.activeTable_ne (.inl hstate))
    · obtain ⟨-, hu⟩ := (h.slots mid hmid).of_active hstate
      obtain ⟨s', hs', hcore, hmem, -, hbeside⟩ :=
        h.toCore.writeTable_active hmid hstate (htid hu)
      refine ⟨s', hs', h.of_core hcore hbeside.memTblSize hbeside.activeTable ?_, hbeside.adding⟩
      rw [hmem]
  · exact ⟨s, rfl, h, rfl⟩

/-! ## Reading saved tables -/

omit h in
/-- A saved table may take its slot when that is free or has another saved one. -/
theorem Core.cache (h : Core tagHash start bound s hist) {m : MemTable} {free tid : Nat}
    (hstate : (s.memTable (slotOf s.memTblSize tid)).state = .free ∨
      (s.memTable (slotOf s.memTblSize tid)).state = .flushed) (hflushed : m.state = .flushed)
    (hpos : 0 < tid) (hle : tid ≤ s.metaData.maxIdxTableId)
    (hstores : Stores tagHash m.data free tid (runAt hist tid)) :
    Core tagHash start bound (s.setMemTable (slotOf s.memTblSize tid) m) hist := by
  refine h.update rfl (fun mid' hmid' => s.setMemTable_of_ne _ hmid') le_rfl
    le_rfl (fun _ _ _ => rfl) (.inl rfl) (fun _ hlt _ _ => hlt) (by omega) ?_ ?_ h.length
    h.saved_le h.disk h.noTableZero h.filled h.ordered h.range h.metaOk h.metaFile
  · have hid := hstores.idxTableId
    rw [Snapshot.setMemTable_self, SlotOk]
    simp only [hflushed]
    refine ⟨?_, ?_, ?_, free, ?_⟩
    · exact hid.symm ▸ hpos
    · exact le_trans (le_of_eq hid) hle
    · exact congrArg _ hid
    · exact hid.symm ▸ hstores
  · intro tid' hlt hle' heq
    exact absurd heq (h.not_live_of_state hstate hlt hle')

/-- `log_index_read_table` finds the run of a saved table, and may put the table into its slot. -/
theorem Inv.readTable {tid : Nat} (hpos : 0 < tid)
    (hmin : s.metaData.minSegmentInfo.minIdxTableId ≤ tid) (hle : tid ≤ s.metaData.maxIdxTableId) :
    ∃ s' t free m, s.readTable tid = some (s', t, m) ∧
      Stores tagHash t free tid (runAt hist tid) ∧ (∀ m' ∈ m, m'.state = .flushed) ∧
      Inv tagHash start bound s' hist ∧ s'.metaData = s.metaData ∧
      Beside (slotOf s.memTblSize tid) s s' := by
  by_cases hhit : (s.memTable (slotOf s.memTblSize tid)).state = .flushed ∧
      (s.memTable (slotOf s.memTblSize tid)).data.idxTableId = tid
  · obtain ⟨free, hstores⟩ := ((h.slots _ (slotOf_lt h.size tid)).cached hhit.1).stores
    rw [hhit.2] at hstores
    refine ⟨s, _, free, _, by rw [Snapshot.readTable, if_pos hhit], hstores, ?_, h, rfl,
      ⟨rfl, fun _ _ => rfl, rfl, rfl, rfl⟩⟩
    rintro m' hm'
    rw [← Option.some.inj hm']
    exact hhit.1
  · obtain ⟨t, free, ht, hstores⟩ := (h.disk tid hpos hmin hle).table
    have hform : s.readTable tid = some
        (if (s.memTable (slotOf s.memTblSize tid)).state = .flushed then
          s.setMemTable (slotOf s.memTblSize tid)
            { s.memTable (slotOf s.memTblSize tid) with data := t } else s, t, none) := by
      rw [Snapshot.readTable, if_neg hhit, Snapshot.savedTable, if_pos hle, ht, Option.map_some]
    refine ⟨_, t, free, none, hform, hstores, by simp, ?_⟩
    split
    · next hstate =>
      have hcore := h.toCore.cache (m := { s.memTable (slotOf s.memTblSize tid) with data := t })
        (.inr hstate) hstate hpos hle hstores
      have hbeside : Beside (slotOf s.memTblSize tid) s
          (s.setMemTable (slotOf s.memTblSize tid)
            { s.memTable (slotOf s.memTblSize tid) with data := t }) :=
        ⟨rfl, fun mid' hmid' => s.setMemTable_of_ne _ hmid', rfl, rfl, rfl⟩
      refine ⟨h.of_core hcore rfl rfl ?_, rfl, hbeside⟩
      exact hbeside.memTable _ (h.activeTable_ne (.inr hstate))
    · exact ⟨h, rfl, ⟨rfl, fun _ _ => rfl, rfl, rfl, rfl⟩⟩

end

/-! ## Truncation -/

theorem MetaOk.cutSegment {metaData : MetaData} (h : MetaOk start bound metaData hist) {lsn : Nat}
    {segment : FileSegment} (hmaxLsn : metaData.maxLsn ≠ invalidLsn)
    (hlsn : metaData.minSegmentInfo.maxLsn < lsn) (hbound : lsn ≤ bound)
    (hother : fileTableSegmentNo metaData.maxIdxTableId ≠ metaData.minSegmentInfo.segmentNo)
    (hsegmentNo : segment.segmentNo = metaData.minSegmentInfo.segmentNo + 1)
    (hminIdx : segment.minIdxTableId = segment.segmentNo * tableNumPerFile + 1)
    (hmax : ∀ tid, 0 < tid → tid ≤ metaData.maxIdxTableId →
      fileTableSegmentNo tid = segment.segmentNo → ∀ e ∈ runAt hist tid, e.lsn ≤ segment.maxLsn) :
    MetaOk start bound { metaData with minSegmentInfo := segment }.withStart hist := by
  have hpos : 0 < metaData.maxIdxTableId := by
    by_contra hzero
    have hlast := h.maxLsn
    rw [Nat.eq_zero_of_not_pos hzero] at hlast
    exact hmaxLsn hlast
  have hmin := h.minIdx hpos
  have hminLe := h.minIdx_le
  have hform : { metaData with minSegmentInfo := segment }.withStart =
      { metaData with minSegmentInfo := segment, startLsn := metaData.maxLsn } := if_pos hmaxLsn
  rw [hform]
  simp only [fileTableSegmentNo, tableNumPerFile] at *
  refine ⟨h.maxLsn, (if_pos hmaxLsn).symm, ?_, fun _ => hminIdx, ?_, hmax, ?_⟩
  · intro hzero
    simp only at hzero
    omega
  · show segment.minIdxTableId ≤ metaData.maxIdxTableId
    omega
  · intro tid hlt e he
    change tid < segment.minIdxTableId at hlt
    by_cases hold : tid < metaData.minSegmentInfo.minIdxTableId
    · exact h.cut tid hold e he
    · refine lt_of_lt_of_le (lt_of_le_of_lt ?_ hlsn) hbound
      refine h.segmentMax tid (by omega) (by omega) ?_ e he
      simp only [fileTableSegmentNo, tableNumPerFile]
      omega

/-- The greatest LSN of the segment after the least one. -/
theorem Core.updateMinSegment (h : Core tagHash start bound s hist)
    (hother : fileTableSegmentNo s.metaData.maxIdxTableId ≠ s.metaData.minSegmentInfo.segmentNo)
    (hpos : 0 < s.metaData.maxIdxTableId) :
    ∃ segment : FileSegment, s.updateMinSegment =
        some (s.writeMeta { s.metaData with minSegmentInfo := segment }) ∧
      segment.segmentNo = s.metaData.minSegmentInfo.segmentNo + 1 ∧
      segment.minIdxTableId = segment.segmentNo * tableNumPerFile + 1 ∧
      ∀ tid, 0 < tid → tid ≤ s.metaData.maxIdxTableId →
        fileTableSegmentNo tid = segment.segmentNo →
        ∀ e ∈ runAt hist tid, e.lsn ≤ segment.maxLsn := by
  have hmin := h.metaOk.minIdx hpos
  have hminLe := h.metaOk.minIdx_le
  have hsavedLe := h.saved_le
  rw [Snapshot.updateMinSegment]
  split
  · refine ⟨_, rfl, rfl, rfl, fun tid htid hle _ e he => ?_⟩
    rw [h.metaOk.maxLsn]
    refine Ordered.le_lastLsn ?_ ?_
    · have hordered := h.ordered
      rw [← List.take_append_drop s.metaData.maxIdxTableId hist, List.flatten_append] at hordered
      exact (List.pairwise_append.mp hordered).1
    · rw [← runAt_take hle] at he
      exact mem_flatten_of_mem_runAt he
  · next hmore =>
    simp only [fileTableSegmentNo, tableNumPerFile] at *
    obtain ⟨t, free, ht, hstores⟩ := (h.disk ((s.metaData.minSegmentInfo.segmentNo + 1 + 1) * 64)
      (by omega) (by omega) (by omega)).table
    rw [ht]
    refine ⟨_, rfl, rfl, rfl, fun tid htid hle hseg e he => ?_⟩
    simp only at hseg
    show e.lsn ≤ t.maxLsn
    rw [hstores.maxLsn]
    rcases lt_or_ge tid ((s.metaData.minSegmentInfo.segmentNo + 1 + 1) * 64) with hlt | hge
    · obtain ⟨e', he', hlast⟩ := exists_mem_lastLsn (h.filled
        ((s.metaData.minSegmentInfo.segmentNo + 1 + 1) * 64) (by omega) (by omega))
      rw [← hlast]
      exact (pairwise_runAt h.ordered hlt he he').1
    · obtain rfl : tid = (s.metaData.minSegmentInfo.segmentNo + 1 + 1) * 64 := by omega
      exact (h.ordered_runAt _).le_lastLsn he

/-- The oldest segment file is given up. -/
theorem Inv.cutSegment (h : Inv tagHash start bound s hist) {lsn : Nat}
    (hmaxLsn : s.metaData.maxLsn ≠ invalidLsn) (hlsn : s.metaData.minSegmentInfo.maxLsn < lsn)
    (hbound : lsn ≤ bound)
    (hother : fileTableSegmentNo s.metaData.maxIdxTableId ≠ s.metaData.minSegmentInfo.segmentNo) :
    ∃ s', s.updateMinSegment = some s' ∧
      Inv tagHash start bound (s'.truncateTbl s.metaData.minSegmentInfo.segmentNo) hist ∧
      s'.adding = s.adding := by
  have hpos : 0 < s.metaData.maxIdxTableId := by
    by_contra hzero
    have hlast := h.metaOk.maxLsn
    rw [Nat.eq_zero_of_not_pos hzero] at hlast
    exact hmaxLsn hlast
  obtain ⟨segment, hform, hsegmentNo, hminIdx, hmax⟩ := h.toCore.updateMinSegment hother hpos
  have hmeta := h.metaOk.cutSegment hmaxLsn hlsn hbound hother hsegmentNo hminIdx hmax
  refine ⟨_, hform, h.of_core ?_ rfl rfl rfl, rfl⟩
  have hsaved : ({ s.metaData with minSegmentInfo := segment }.withStart).maxIdxTableId =
      s.metaData.maxIdxTableId := MetaData.withStart_maxIdxTableId _
  have hsegment : ({ s.metaData with minSegmentInfo := segment }.withStart).minSegmentInfo =
      segment := MetaData.withStart_minSegmentInfo _
  have hmin := h.metaOk.minIdx hpos
  refine
    { size := h.size
      length := h.length
      saved_le := hsaved ▸ h.saved_le
      slots := hsaved.symm ▸ h.slots
      live := hsaved.symm ▸ h.live
      disk := ?_
      noTableZero := ?_
      filled := h.filled
      ordered := h.ordered
      range := h.range
      metaOk := hmeta
      metaFile := rfl }
  · intro tid htid hle hle'
    change (MetaData.withStart _).minSegmentInfo.minIdxTableId ≤ _ at hle
    change _ ≤ (MetaData.withStart _).maxIdxTableId at hle'
    rw [hsaved] at hle'
    rw [hsegment] at hle
    simp only [tableNumPerFile] at hminIdx hmin
    obtain ⟨⟨t, free, ht, hstores⟩, hbloom⟩ := h.disk tid htid (by omega) hle'
    refine ⟨⟨t, free, ?_, hstores⟩, hbloom⟩
    show (if fileTableSegmentNo tid = s.metaData.minSegmentInfo.segmentNo then none
      else s.storage.table tid) = some t
    rw [if_neg, ht]
    simp only [fileTableSegmentNo, tableNumPerFile]
    omega
  · show (if _ then none else s.storage.table invalidTableId) = none
    split
    · rfl
    · exact h.noTableZero

/-- `polar_logindex_truncate` keeps the log; it only cuts off files with smaller LSNs. -/
theorem Inv.truncate (h : Inv tagHash start bound s hist) {lsn : Nat} (hbound : lsn ≤ bound) :
    ∃ s', s.truncate lsn = some s' ∧ Inv tagHash start bound s' hist ∧ s'.adding = s.adding := by
  have hloop : ∀ (fuel : Nat) (s : Snapshot), Inv tagHash start bound s hist →
      ∃ s', Snapshot.truncateLoop lsn fuel s = some s' ∧ Inv tagHash start bound s' hist ∧
        s'.adding = s.adding := by
    intro fuel
    induction fuel with
    | zero => exact fun s h => ⟨s, rfl, h, rfl⟩
    | succ fuel ih =>
      intro s h
      rw [Snapshot.truncateLoop]
      split
      · exact ⟨s, rfl, h, rfl⟩
      · next hcut =>
        simp only [not_or, not_le] at hcut
        obtain ⟨s₁, hs₁, hinv, hadding⟩ :=
          h.cutSegment hcut.1 hcut.2.2.1 hbound hcut.2.2.2
        obtain ⟨s₂, hs₂, hinv₂, hadding₂⟩ := ih _ hinv
        refine ⟨s₂, ?_, hinv₂, hadding₂.trans hadding⟩
        rw [hs₁, Option.bind_some, hs₂]
  rw [Snapshot.truncate]
  split
  · exact ⟨s, rfl, h, rfl⟩
  · exact hloop _ s h

end Polar.Logindex
