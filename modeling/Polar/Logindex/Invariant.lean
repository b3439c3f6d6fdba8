import Polar.Base.Ring
import Polar.Base.Runs
import Polar.Logindex.Contents
import Polar.Logindex.Snapshot

/-!
# The contents of a logindex snapshot

The entries inserted into a snapshot form a log, cut into runs: run number `tid` is the content
of the table with that id. `Core` says where each run is found, in a slot of the memory ring or in
storage, and what the meta data says of the saved runs.
-/

namespace Polar.Logindex

/-- A slot with a table that is not saved yet. -/
structure Unsaved (tagHash : BufferTag → Nat) (memTblSize saved : Nat) (hist : List (List Entry))
    (mid : Nat) (m : MemTable) : Prop where
  saved_lt : saved < m.data.idxTableId
  le_length : m.data.idxTableId ≤ hist.length
  slot : slotOf memTblSize m.data.idxTableId = mid
  stores : Stores tagHash m.data m.freeHead m.data.idxTableId (runAt hist m.data.idxTableId)

/-- A slot with a saved table. -/
structure Cached (tagHash : BufferTag → Nat) (memTblSize saved : Nat) (hist : List (List Entry))
    (mid : Nat) (m : MemTable) : Prop where
  pos : 0 < m.data.idxTableId
  le_saved : m.data.idxTableId ≤ saved
  slot : slotOf memTblSize m.data.idxTableId = mid
  stores : ∃ free, Stores tagHash m.data free m.data.idxTableId (runAt hist m.data.idxTableId)

/-- What a slot holds in each of its states. -/
def SlotOk (tagHash : BufferTag → Nat) (memTblSize saved : Nat) (hist : List (List Entry))
    (mid : Nat) (m : MemTable) : Prop :=
  match m.state with
  | .free => m = .zero
  | .active =>
    m.data.idxTableId = hist.length ∧ Unsaved tagHash memTblSize saved hist mid m
  | .inactive =>
    runAt hist m.data.idxTableId ≠ [] ∧ Unsaved tagHash memTblSize saved hist mid m
  | .flushed => Cached tagHash memTblSize saved hist mid m

/-- A saved table with its bloom data. -/
structure OnDisk (tagHash : BufferTag → Nat) (storage : Storage) (hist : List (List Entry))
    (tid : Nat) : Prop where
  table : ∃ t free, storage.table tid = some t ∧ Stores tagHash t free tid (runAt hist tid)
  bloom : ∃ bloom, storage.bloom tid = some bloom ∧ BloomOf bloom tid (runAt hist tid)

theorem OnDisk.congr {tagHash : BufferTag → Nat} {storage : Storage}
    {hist hist' : List (List Entry)}
    {tid : Nat} (h : OnDisk tagHash storage hist tid) (hrun : runAt hist' tid = runAt hist tid) :
    OnDisk tagHash storage hist' tid := by
  obtain ⟨htable, hbloom⟩ := h
  exact ⟨hrun ▸ htable, hrun ▸ hbloom⟩

/-- The meta data of the saved runs, of which those with LSNs below `bound` may be cut off. While
no run is saved, `start` is the LSN to start from. -/
structure MetaOk (start bound : Nat) (metaData : MetaData) (hist : List (List Entry)) : Prop where
  maxLsn : metaData.maxLsn = lastLsn (hist.take metaData.maxIdxTableId).flatten
  startLsn : metaData.startLsn =
    if metaData.maxLsn ≠ invalidLsn then metaData.maxLsn else start
  unsaved : metaData.maxIdxTableId = 0 → metaData.minSegmentInfo = ⟨0, 0, 0, 0⟩
  minIdx : 0 < metaData.maxIdxTableId → metaData.minSegmentInfo.minIdxTableId =
    metaData.minSegmentInfo.segmentNo * tableNumPerFile + 1
  minIdx_le : metaData.minSegmentInfo.minIdxTableId ≤ metaData.maxIdxTableId
  segmentMax : ∀ tid, 0 < tid → tid ≤ metaData.maxIdxTableId →
    fileTableSegmentNo tid = metaData.minSegmentInfo.segmentNo →
    ∀ e ∈ runAt hist tid, e.lsn ≤ metaData.minSegmentInfo.maxLsn
  cut : ∀ tid < metaData.minSegmentInfo.minIdxTableId, ∀ e ∈ runAt hist tid, e.lsn < bound

/-- Where the runs are. -/
structure Core (tagHash : BufferTag → Nat) (start bound : Nat) (s : Snapshot)
    (hist : List (List Entry)) : Prop where
  size : 3 ≤ s.memTblSize
  length : s.maxIdxTableId = hist.length
  saved_le : s.metaData.maxIdxTableId ≤ hist.length
  slots : ∀ mid < s.memTblSize,
    SlotOk tagHash s.memTblSize s.metaData.maxIdxTableId hist mid (s.memTable mid)
  live : ∀ tid, s.metaData.maxIdxTableId < tid → tid ≤ hist.length →
    (s.memTable (slotOf s.memTblSize tid)).data.idxTableId = tid ∧
      ((s.memTable (slotOf s.memTblSize tid)).state = .active ∨
        (s.memTable (slotOf s.memTblSize tid)).state = .inactive)
  disk : ∀ tid, 0 < tid → s.metaData.minSegmentInfo.minIdxTableId ≤ tid →
    tid ≤ s.metaData.maxIdxTableId → OnDisk tagHash s.storage hist tid
  noTableZero : s.storage.table invalidTableId = none
  filled : ∀ tid, 0 < tid → tid < hist.length → runAt hist tid ≠ []
  ordered : Ordered hist.flatten
  range : ∀ e ∈ hist.flatten, invalidLsn < e.lsn ∧ e.lsn < uint64Max
  metaOk : MetaOk start bound s.metaData hist
  metaFile : s.storage.metaFile = s.metaData

/-- The state of a snapshot between two calls. -/
structure Inv (tagHash : BufferTag → Nat) (start bound : Nat) (s : Snapshot)
    (hist : List (List Entry)) : Prop extends Core tagHash start bound s hist where
  active : hist ≠ [] → s.activeTable = slotOf s.memTblSize hist.length ∧
    (s.memTable s.activeTable).state = .active
  first : hist = [] → s.activeTable = 0 ∧ (s.memTable 0).state = .free
  fresh : hist ≠ [] → runAt hist hist.length = [] → (s.memTable s.activeTable).isNew

theorem slotOf_lt {memTblSize : Nat} (h : 3 ≤ memTblSize) (tid : Nat) :
    slotOf memTblSize tid < memTblSize := Nat.mod_lt _ (by omega)

theorem slotOf_pos {memTblSize tid : Nat} (h : 0 < tid) :
    slotOf memTblSize tid = (tid - 1) % memTblSize := by
  rw [slotOf, if_neg (show tid ≠ invalidTableId from Nat.ne_of_gt h)]

theorem slotOf_succ (memTblSize tid : Nat) : slotOf memTblSize (tid + 1) = tid % memTblSize := by
  simp [slotOf, invalidTableId]

/-- Ids less than the ring apart have different slots. -/
theorem slotOf_inj {memTblSize lo tid tid' : Nat} (hsize : 3 ≤ memTblSize)
    (h : slotOf memTblSize tid = slotOf memTblSize tid') (hlo : lo < tid)
    (hhi : tid ≤ lo + memTblSize) (hlo' : lo < tid') (hhi' : tid' ≤ lo + memTblSize) :
    tid = tid' := by
  rw [slotOf_pos (by omega), slotOf_pos (by omega)] at h
  have := Ring.mod_inj_of_window (show 0 < memTblSize by omega) (show lo ≤ tid - 1 by omega)
    (by omega) (show lo ≤ tid' - 1 by omega) (by omega) h
  omega

/-! ## Saving the next table -/

theorem lastLsn_append {es es' : List Entry} (h : es' ≠ []) :
    lastLsn (es ++ es') = lastLsn es' := by
  rw [lastLsn, List.getLast?_append_of_ne_nil _ h, lastLsn]

theorem exists_mem_lastLsn {es : List Entry} (h : es ≠ []) : ∃ e ∈ es, e.lsn = lastLsn es := by
  refine ⟨es.getLast h, List.getLast_mem h, ?_⟩
  rw [lastLsn, List.getLast?_eq_some_getLast h]
  rfl

theorem lastLsn_le_of_forall {es : List Entry} {n : Nat} (h : ∀ e ∈ es, e.lsn ≤ n) :
    lastLsn es ≤ n := by
  by_cases hes : es = []
  · subst hes
    exact Nat.zero_le _
  · obtain ⟨e, he, heq⟩ := exists_mem_lastLsn hes
    exact heq ▸ h e he

variable {start bound : Nat} {metaData : MetaData} {hist : List (List Entry)}

theorem MetaOk.segmentNo_le (h : MetaOk start bound metaData hist) :
    metaData.minSegmentInfo.segmentNo ≤ fileTableSegmentNo (metaData.maxIdxTableId + 1) := by
  rw [fileTableSegmentNo]
  rcases Nat.eq_zero_or_pos metaData.maxIdxTableId with hzero | hpos
  · rw [h.unsaved hzero]
    exact Nat.zero_le _
  · have hmin := h.minIdx hpos
    have hle := h.minIdx_le
    simp only [tableNumPerFile] at *
    omega

/-- The meta data after the next run is saved. -/
theorem MetaOk.addTable (h : MetaOk start bound metaData hist) (hordered : Ordered hist.flatten)
    (hrange : ∀ e ∈ hist.flatten, invalidLsn < e.lsn ∧ e.lsn < uint64Max)
    (hne : runAt hist (metaData.maxIdxTableId + 1) ≠ []) :
    MetaOk start bound (metaData.addTable (metaData.maxIdxTableId + 1)
      (lastLsn (runAt hist (metaData.maxIdxTableId + 1)))).withStart hist := by
  have hseg := h.segmentNo_le
  generalize hn : metaData.maxIdxTableId = n at *
  generalize hr : runAt hist (n + 1) = run at *
  obtain ⟨e, he, hlast⟩ := exists_mem_lastLsn hne
  have hpos : invalidLsn < lastLsn run :=
    hlast ▸ (hrange e (mem_flatten_of_mem_runAt (hr ▸ he))).1
  have hle : metaData.maxLsn ≤ lastLsn run := by
    rw [h.maxLsn, hn]
    refine lastLsn_le_of_forall fun e' he' => ?_
    rw [← List.take_append_drop n hist, List.flatten_append, flatten_drop, hr] at hordered
    rw [← hlast]
    exact ((List.pairwise_append.mp hordered).2.2 e' he' e (List.mem_append_left _ he)).1
  have hrun : ∀ e' ∈ runAt hist (n + 1), e'.lsn ≤ lastLsn run := fun e' he' =>
    Ordered.le_lastLsn (hr ▸ pairwise_of_runAt hordered (n + 1)) (hr ▸ he')
  have hform : (metaData.addTable (n + 1) (lastLsn run)).withStart =
      { maxIdxTableId := n + 1, maxLsn := lastLsn run, startLsn := lastLsn run,
        minSegmentInfo :=
          if metaData.minSegmentInfo.segmentNo = fileTableSegmentNo (n + 1) then
            { segmentNo := metaData.minSegmentInfo.segmentNo
              maxLsn := max (lastLsn run) metaData.minSegmentInfo.maxLsn
              maxIdxTableId := max (n + 1) metaData.minSegmentInfo.maxIdxTableId
              minIdxTableId := metaData.minSegmentInfo.segmentNo * tableNumPerFile + 1 }
          else metaData.minSegmentInfo } := by
    have hmax : max metaData.maxLsn (lastLsn run) = lastLsn run := max_eq_right hle
    have hmin := min_eq_left hseg
    simp only [MetaData.addTable, hmin, hn, hmax, max_eq_right (Nat.le_succ n)]
    rw [MetaData.withStart, if_pos (Nat.ne_of_gt hpos)]
  rw [hform]
  have hunsaved := h.unsaved
  have hminIdx := h.minIdx
  have hminLe := h.minIdx_le
  rw [hn] at hunsaved hminIdx hminLe
  simp only [fileTableSegmentNo, Nat.add_sub_cancel] at hseg ⊢
  refine ⟨?_, (if_pos (Nat.ne_of_gt hpos)).symm, by simp, ?_, ?_, ?_, ?_⟩
  · rw [flatten_take_succ, hr, lastLsn_append hne]
  · intro _
    split
    · rfl
    · next hother =>
      refine hminIdx ?_
      by_contra hzero
      obtain rfl : n = 0 := by omega
      rw [hunsaved rfl] at hother
      exact hother rfl
  · split
    · next hsame =>
      rw [hsame]
      simp only [tableNumPerFile]
      omega
    · exact Nat.le_succ_of_le hminLe
  · intro tid htid hle' htidSeg e' he'
    change tid ≤ n + 1 at hle'
    split at htidSeg
    · next hsame =>
      rw [if_pos hsame]
      simp only at htidSeg ⊢
      rcases lt_or_eq_of_le hle' with hlt | rfl
      · have := h.segmentMax tid htid (by omega) htidSeg e' he'
        omega
      · have := hrun e' he'
        omega
    · next hother =>
      rw [if_neg hother]
      rcases lt_or_eq_of_le hle' with hlt | rfl
      · exact h.segmentMax tid htid (by omega) htidSeg e' he'
      · exact absurd htidSeg.symm hother
  · intro tid htid e' he'
    split at htid
    · rcases Nat.eq_zero_or_pos n with rfl | hn'
      · rw [hunsaved rfl] at htid
        obtain rfl : tid = 0 := by simpa using htid
        simp [runAt_zero] at he'
      · exact h.cut tid (by rw [hminIdx hn']; exact htid) e' he'
    · exact h.cut tid htid e' he'

/-- The meta data only speaks of the saved runs. -/
theorem MetaOk.congr {hist hist' : List (List Entry)} (h : MetaOk start bound metaData hist)
    (htake : hist'.take metaData.maxIdxTableId = hist.take metaData.maxIdxTableId) :
    MetaOk start bound metaData hist' := by
  have hrun : ∀ tid ≤ metaData.maxIdxTableId, runAt hist' tid = runAt hist tid := by
    intro tid htid
    rw [← runAt_take htid, htake, runAt_take htid]
  refine { h with maxLsn := htake ▸ h.maxLsn, segmentMax := ?_, cut := ?_ }
  · intro tid hpos hle hseg e he
    exact h.segmentMax tid hpos hle hseg e (hrun tid hle ▸ he)
  · intro tid hlt e he
    have hle := h.minIdx_le
    exact h.cut tid hlt e (hrun tid (by omega) ▸ he)

theorem MetaData.withStart_maxIdxTableId (metaData : MetaData) :
    metaData.withStart.maxIdxTableId = metaData.maxIdxTableId := by
  rw [MetaData.withStart]
  split <;> rfl

theorem MetaData.withStart_minSegmentInfo (metaData : MetaData) :
    metaData.withStart.minSegmentInfo = metaData.minSegmentInfo := by
  rw [MetaData.withStart]
  split <;> rfl

theorem MetaData.addTable_maxIdxTableId (metaData : MetaData) (lsn : Nat) :
    (metaData.addTable (metaData.maxIdxTableId + 1) lsn).maxIdxTableId =
      metaData.maxIdxTableId + 1 :=
  max_eq_right (Nat.le_succ _)

/-- Saving a table does not move the least table id. -/
theorem MetaOk.addTable_minIdx (h : MetaOk start bound metaData hist)
    (hpos : 0 < metaData.maxIdxTableId) (lsn : Nat) :
    (metaData.addTable (metaData.maxIdxTableId + 1) lsn).minSegmentInfo.minIdxTableId =
      metaData.minSegmentInfo.minIdxTableId := by
  simp only [MetaData.addTable, min_eq_left h.segmentNo_le]
  split
  · exact (h.minIdx hpos).symm
  · rfl

/-! ## Slots -/

namespace Snapshot

@[simp]
theorem setMemTable_self (s : Snapshot) (mid : Nat) (m : MemTable) :
    (s.setMemTable mid m).memTable mid = m := by
  simp [setMemTable]

theorem setMemTable_of_ne (s : Snapshot) {mid mid' : Nat} (m : MemTable) (h : mid' ≠ mid) :
    (s.setMemTable mid m).memTable mid' = s.memTable mid' := by
  simp [setMemTable, h]

end Snapshot

/-- The snapshots differ in one slot, in storage and in the meta data at most. -/
structure Beside (mid : Nat) (s s' : Snapshot) : Prop where
  memTblSize : s'.memTblSize = s.memTblSize
  memTable : ∀ mid' ≠ mid, s'.memTable mid' = s.memTable mid'
  activeTable : s'.activeTable = s.activeTable
  maxIdxTableId : s'.maxIdxTableId = s.maxIdxTableId
  adding : s'.adding = s.adding

namespace SlotOk

variable {tagHash : BufferTag → Nat} {memTblSize saved saved' mid : Nat}
  {hist hist' : List (List Entry)} {m : MemTable}

section

variable (h : SlotOk tagHash memTblSize saved hist mid m)
include h

theorem zero (hstate : m.state = .free) : m = .zero := by
  rwa [SlotOk, hstate] at h

theorem of_active (hstate : m.state = .active) :
    m.data.idxTableId = hist.length ∧ Unsaved tagHash memTblSize saved hist mid m := by
  rwa [SlotOk, hstate] at h

theorem of_inactive (hstate : m.state = .inactive) :
    runAt hist m.data.idxTableId ≠ [] ∧ Unsaved tagHash memTblSize saved hist mid m := by
  rwa [SlotOk, hstate] at h

theorem cached (hstate : m.state = .flushed) : Cached tagHash memTblSize saved hist mid m := by
  rwa [SlotOk, hstate] at h

/-- A slot stays right when its table keeps its entries and its place among the saved ones. -/
theorem mono (hrun : ∀ tid, m.data.idxTableId = tid → runAt hist' tid = runAt hist tid)
    (hactive : m.state = .active → hist'.length = hist.length)
    (hlength : hist.length ≤ hist'.length) (hsaved : saved ≤ saved')
    (hnew : Unsaved tagHash memTblSize saved hist mid m → saved' < m.data.idxTableId) :
    SlotOk tagHash memTblSize saved' hist' mid m := by
  rw [SlotOk] at h ⊢
  have hrun := hrun _ rfl
  have hunsaved : Unsaved tagHash memTblSize saved hist mid m →
      Unsaved tagHash memTblSize saved' hist' mid m := fun hu =>
    { saved_lt := hnew hu
      le_length := le_trans hu.le_length hlength
      slot := hu.slot
      stores := hrun ▸ hu.stores }
  split at h
  · exact h
  · next hstate => exact ⟨h.1.trans (hactive hstate).symm, hunsaved h.2⟩
  · exact ⟨hrun ▸ h.1, hunsaved h.2⟩
  · exact { h with le_saved := le_trans h.le_saved hsaved, stores := hrun ▸ h.stores }

end

end SlotOk

namespace Core

variable {tagHash : BufferTag → Nat} {start bound : Nat} {s : Snapshot} {hist : List (List Entry)}

variable (h : Core tagHash start bound s hist)
include h

/-- The tables that are not saved fit into the ring. -/
theorem window :
    hist.length ≤ s.metaData.maxIdxTableId + s.memTblSize := by
  by_contra hgt
  have hsize := h.size
  have hfirst := (h.live (s.metaData.maxIdxTableId + 1) (by omega) (by omega)).1
  have hlap := (h.live (s.metaData.maxIdxTableId + 1 + s.memTblSize) (by omega) (by omega)).1
  have hslot : slotOf s.memTblSize (s.metaData.maxIdxTableId + 1 + s.memTblSize) =
      slotOf s.memTblSize (s.metaData.maxIdxTableId + 1) := by
    rw [Nat.add_right_comm, slotOf_succ, slotOf_succ, Nat.add_mod_right]
  rw [hslot] at hlap
  omega

theorem ordered_runAt (tid : Nat) :
    Ordered (runAt hist tid) :=
  pairwise_of_runAt h.ordered tid

omit h in
/-- A step that changes one slot: what has to be shown of that slot, of the files and of the log,
for the other slots to stay right. -/
theorem update {s' : Snapshot} {hist' : List (List Entry)} {mid : Nat}
    (h : Core tagHash start bound s hist) (hsize : s'.memTblSize = s.memTblSize)
    (hmem : ∀ mid' ≠ mid, s'.memTable mid' = s.memTable mid') (hgrow : hist.length ≤ hist'.length)
    (hsaved : s.metaData.maxIdxTableId ≤ s'.metaData.maxIdxTableId)
    (hrun : ∀ tid, tid ≤ hist.length →
      slotOf s.memTblSize tid ≠ mid ∨ tid ≤ s.metaData.maxIdxTableId →
      runAt hist' tid = runAt hist tid)
    (hactive : hist'.length = hist.length ∨
      ∀ mid' < s.memTblSize, mid' ≠ mid → (s.memTable mid').state ≠ .active)
    (hnew : ∀ tid, s.metaData.maxIdxTableId < tid → tid ≤ hist.length →
      slotOf s.memTblSize tid ≠ mid → s'.metaData.maxIdxTableId < tid)
    (hmid : ∀ tid, hist.length < tid → tid ≤ hist'.length → slotOf s.memTblSize tid = mid)
    (hslot : SlotOk tagHash s.memTblSize s'.metaData.maxIdxTableId hist' mid (s'.memTable mid))
    (hlive : ∀ tid, s'.metaData.maxIdxTableId < tid → tid ≤ hist'.length →
      slotOf s.memTblSize tid = mid → (s'.memTable mid).data.idxTableId = tid ∧
        ((s'.memTable mid).state = .active ∨ (s'.memTable mid).state = .inactive))
    (hlength : s'.maxIdxTableId = hist'.length)
    (hsaved_le : s'.metaData.maxIdxTableId ≤ hist'.length)
    (hdisk : ∀ tid, 0 < tid → s'.metaData.minSegmentInfo.minIdxTableId ≤ tid →
      tid ≤ s'.metaData.maxIdxTableId → OnDisk tagHash s'.storage hist' tid)
    (hzero : s'.storage.table invalidTableId = none)
    (hfilled : ∀ tid, 0 < tid → tid < hist'.length → runAt hist' tid ≠ [])
    (hordered : Ordered hist'.flatten)
    (hrange : ∀ e ∈ hist'.flatten, invalidLsn < e.lsn ∧ e.lsn < uint64Max)
    (hmeta : MetaOk start bound s'.metaData hist') (hfile : s'.storage.metaFile = s'.metaData) :
    Core tagHash start bound s' hist' where
  size := hsize ▸ h.size
  length := hlength
  saved_le := hsaved_le
  slots mid' hmid' := by
    rw [hsize] at hmid' ⊢
    by_cases heq : mid' = mid
    · subst heq
      exact hslot
    · rw [hmem mid' heq]
      have hold := h.slots mid' hmid'
      refine hold.mono ?_ ?_ hgrow hsaved ?_
      · rintro tid rfl
        cases hstate : (s.memTable mid').state with
        | free => rw [hold.zero hstate]; rfl
        | active =>
          have hu := (hold.of_active hstate).2
          exact hrun _ hu.le_length (.inl (by rwa [hu.slot]))
        | inactive =>
          have hu := (hold.of_inactive hstate).2
          exact hrun _ hu.le_length (.inl (by rwa [hu.slot]))
        | flushed =>
          have hc := hold.cached hstate
          exact hrun _ (le_trans hc.le_saved h.saved_le) (.inl (by rwa [hc.slot]))
      · intro hstate
        exact hactive.resolve_right fun hnone => hnone mid' hmid' heq hstate
      · intro hu
        exact hnew _ hu.saved_lt hu.le_length (by rwa [hu.slot])
  live tid htid hle := by
    rw [hsize]
    by_cases heq : slotOf s.memTblSize tid = mid
    · rw [heq]
      exact hlive tid htid hle heq
    · rw [hmem _ heq]
      refine h.live tid (lt_of_le_of_lt hsaved htid) ?_
      exact Nat.le_of_not_lt fun hlt => heq (hmid tid hlt hle)
  disk := hdisk
  noTableZero := hzero
  filled := hfilled
  ordered := hordered
  range := hrange
  metaOk := hmeta
  metaFile := hfile

/-- `log_index_write_table_data` finds the LSN range the next table has already. -/
theorem writeTableData {t : Table} {free tid : Nat} (htid : tid = s.metaData.maxIdxTableId + 1)
    (hstores : Stores tagHash t free tid (runAt hist tid)) :
    ∃ storage, s.writeTableData t = some ({ s with storage }, t) ∧
      Core tagHash start bound { s with storage } hist ∧ OnDisk tagHash storage hist tid := by
  obtain ⟨bloom, hdata, hbloom⟩ := hstores.getBloomData (h.ordered_runAt tid)
    fun e he => le_of_lt (h.range e (mem_flatten_of_mem_runAt he)).2
  obtain rfl := hstores.idxTableId
  rw [Snapshot.writeTableData, hdata, Option.map_some, hbloom.minLsn, hbloom.maxLsn,
    ← hstores.minLsn, ← hstores.maxLsn]
  refine ⟨_, rfl, { h with disk := ?_, noTableZero := ?_ }, ⟨t, free, ?_, hstores⟩, bloom, ?_, hbloom⟩
  · intro tid hpos hmin hle
    have hne : tid ≠ t.idxTableId := htid ▸ ne_of_lt (Nat.lt_succ_of_le hle)
    obtain ⟨⟨t', free', ht, hstores'⟩, bloom', hb, hof⟩ := h.disk tid hpos hmin hle
    exact ⟨⟨t', free', (Function.update_of_ne hne ..).trans ht, hstores'⟩, bloom',
      (Function.update_of_ne hne ..).trans hb, hof⟩
  · have hne : invalidTableId ≠ t.idxTableId := htid ▸ (Nat.succ_ne_zero _).symm
    exact (Function.update_of_ne hne ..).trans h.noTableZero
  · exact Function.update_self ..
  · exact Function.update_self ..

/-- Saving the next table moves it from the unsaved to the saved ones. -/
theorem writeTable {mid : Nat} (hmid : mid < s.memTblSize)
    (hstate : (s.memTable mid).state = .inactive)
    (htid : (s.memTable mid).data.idxTableId = s.metaData.maxIdxTableId + 1) :
    ∃ s', s.writeTable mid = some s' ∧ Core tagHash start bound s' hist ∧
      (s'.memTable mid).state = .flushed ∧ Beside mid s s' := by
  obtain ⟨hne, hu⟩ := (h.slots mid hmid).of_inactive hstate
  have hstores := hu.stores
  have hslot := hu.slot
  rw [htid] at hne hstores hslot
  obtain ⟨storage, hdata, h, hondisk⟩ := h.writeTableData rfl hstores
  have hmeta := h.metaOk.addTable h.ordered h.range hne
  obtain ⟨s', hform, hbeside, hself, hmeta', hstorage⟩ : ∃ s', s.writeTable mid = some s' ∧
      Beside mid { s with storage } s' ∧
      s'.memTable mid = { s.memTable mid with state := .flushed } ∧
      s'.metaData = (s.metaData.addTable (s.metaData.maxIdxTableId + 1)
        (lastLsn (runAt hist (s.metaData.maxIdxTableId + 1)))).withStart ∧
      s'.storage = { storage with metaFile := s'.metaData } := by
    rw [Snapshot.writeTable, hdata, Option.map_some]
    simp only [hstate, reduceCtorEq, htid, hstores.maxLsn]
    exact ⟨_, rfl, ⟨rfl, fun mid' hmid' => Snapshot.setMemTable_of_ne _ _ hmid', rfl, rfl, rfl⟩,
      Snapshot.setMemTable_self _ _ _, rfl, rfl⟩
  have hsaved : s'.metaData.maxIdxTableId = s.metaData.maxIdxTableId + 1 := by
    rw [hmeta', MetaData.withStart_maxIdxTableId, MetaData.addTable_maxIdxTableId]
  have hle := hu.le_length
  refine ⟨s', hform, ?_, by rw [hself], { hbeside with }⟩
  refine h.update hbeside.memTblSize hbeside.memTable le_rfl
    (hsaved ▸ Nat.le_succ _) (fun _ _ _ => rfl) (.inl rfl) ?_ (by omega) ?_ ?_
    (hbeside.maxIdxTableId.trans h.length) (by omega) ?_ (hstorage ▸ h.noTableZero) h.filled
    h.ordered h.range (hmeta' ▸ hmeta) (hstorage ▸ rfl)
  · intro tid hlt _ heq
    rw [hsaved]
    refine lt_of_le_of_ne hlt fun htid' => heq ?_
    rw [← htid']
    exact hslot
  · rw [hself, hsaved]
    exact ⟨by simp [htid], by simp [htid], hu.slot, _, hu.stores⟩
  · intro tid hlt hle' heq
    have hlive := (h.live tid (by dsimp only; omega) hle').1
    rw [heq] at hlive
    dsimp only at hlive
    omega
  · intro tid hpos hmin hle'
    rw [hstorage]
    rw [hsaved] at hle'
    rcases lt_or_eq_of_le hle' with hlt | rfl
    · have hold := Nat.le_of_lt_succ hlt
      rw [hmeta', MetaData.withStart_minSegmentInfo,
        h.metaOk.addTable_minIdx (hpos.trans_le hold)] at hmin
      exact { h.disk tid hpos hmin hold with }
    · exact { hondisk with }

end Core

end Polar.Logindex
