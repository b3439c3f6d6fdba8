import Polar.Logindex.Preservation

/-!
# The active table

A table is opened in the next slot of the ring, whose table is saved first if need be, takes
entries while it is active, and is closed once it holds some.
-/

namespace Polar.Logindex

open Snapshot (setMemTable_self)

open List Option

variable {tagHash : BufferTag → Nat} {start bound : Nat} {s : Snapshot} {hist : List (List Entry)}

/-! ## The active table -/

section Table

variable {t t' : Table} {free free' tid : Nat} {heads : List (Nat × BufferTag)} {es : List Entry}
  {e : Entry}

section

variable (h : Layout tagHash t free heads es)
include h

/-- The range of LSNs and the id are no part of the layout. -/
theorem Layout.congr (hsegment : t'.segment = t.segment)
    (hhash : t'.hash = t.hash) (horder : t'.idxOrder = t.idxOrder)
    (hprefixLsn : t'.prefixLsn = t.prefixLsn) : Layout tagHash t' free heads es := by
  have hgrows : Grows t t' := .of_segment_eq hprefixLsn hsegment
  refine { h with unused := hsegment ▸ h.unused, chains := ?_, items := ?_, order := ?_,
                  upper := hprefixLsn ▸ h.upper }
  · exact h.chains_of_grows hgrows hhash
  · exact fun h' hh' => (h.items h' hh').frame fun id _ => congrFun hsegment id
  · rw [horder]
    exact h.order.imp fun code e' ⟨prev, hprev⟩ => hgrows.orderLsnInfo hprev

/-- Only pages with entries have items. -/
theorem Layout.tag_mem {head : Nat} {tag : BufferTag}
    (hmem : (head, tag) ∈ heads) : ∃ e ∈ es, e.tag = tag := by
  obtain ⟨item, chunks, -, -, -, hfound⟩ := Stores.found_of_isItem h hmem
  obtain ⟨lsn, hlsn⟩ := exists_mem_of_ne_nil _ hfound.ne_nil
  exact ⟨⟨tag, lsn⟩, mem_lsnsFor.mp hlsn, rfl⟩

/-- An item has a last segment. -/
theorem Layout.exists_memSegFull {head : Nat}
    {tag : BufferTag} (hmem : (head, tag) ∈ heads) : ∃ full, t.memSegFull head = some full := by
  obtain ⟨item, chunks, rfl, -, -, htail, hchain, -⟩ := h.items _ hmem
  rw [Table.memSegFull, hchain.itemHead, bind_some]
  cases chunks with
  | nil => exact ⟨_, if_pos htail⟩
  | cons c older =>
    rw [htail, tailOf, if_neg hchain.headSeg_ne.symm, hchain.itemSeg]
    exact ⟨_, rfl⟩

end

/-- A table without entries takes the upper half of the first LSN. -/
theorem Stores.setPrefix (h : Stores tagHash t free tid []) (hprefixLsn : Nat) :
    Stores tagHash { t with prefixLsn := hprefixLsn } free tid [] := by
  obtain ⟨⟨heads, hlayout⟩, htid, hmin, hmax⟩ := h
  obtain rfl : heads = [] := by
    refine eq_nil_iff_forall_not_mem.mpr fun h' hh' => ?_
    obtain ⟨e, he, -⟩ := hlayout.tag_mem hh'
    exact not_mem_nil he
  refine ⟨⟨[], { hlayout with chains := ?_, items := ?_, order := ?_, upper := ?_ }⟩, htid, hmin,
    hmax⟩
  · exact fun key => hlayout.chains key
  · exact fun h' hh' => absurd hh' not_mem_nil
  · have hnil := forall₂_nil_right_iff.mp hlayout.order
    rw [hnil]
    exact .nil
  · exact fun e he => absurd he not_mem_nil

/-- An insertion and the update of the table's range behind it. -/
theorem Stores.note (h : Stores tagHash t free tid es) (hordered : Ordered (es ++ [e]))
    (hrange : e.lsn < uint64Max) (hlayout : Layout tagHash t' free' heads (es ++ [e]))
    (hinfo : SameInfo t t') :
    Stores tagHash { t' with maxLsn := max e.lsn t'.maxLsn, minLsn := min e.lsn t'.minLsn }
      free' tid (es ++ [e]) := by
  have hle : ∀ e' ∈ es, e'.lsn ≤ e.lsn := fun e' he' =>
    ((pairwise_append.mp hordered).2.2 e' he' e mem_cons_self).1
  refine ⟨⟨heads, hlayout.congr rfl rfl rfl rfl⟩, hinfo.idxTableId.trans h.idxTableId, ?_, ?_⟩
  · rw [hinfo.minLsn, h.minLsn]
    cases es with
    | nil => exact min_eq_left (le_of_lt hrange)
    | cons first es => exact min_eq_right (hle first mem_cons_self)
  · rw [hinfo.maxLsn, h.maxLsn, lastLsn_append (cons_ne_nil e [])]
    exact max_eq_left (lastLsn_le_of_forall hle)

end Table

/-! ## Opening a table -/

theorem nextId_slotOf {tid : Nat} (hsize : 3 ≤ s.memTblSize) (hpos : 0 < tid) :
    s.nextId (slotOf s.memTblSize tid) = slotOf s.memTblSize (tid + 1) := by
  obtain ⟨n, rfl⟩ : ∃ n, tid = n + 1 := ⟨tid - 1, by omega⟩
  rw [slotOf_succ, slotOf_succ, Snapshot.nextId]
  have hlt : n % s.memTblSize < s.memTblSize := Nat.mod_lt _ (by omega)
  split
  · next hlast =>
    rw [Nat.add_mod, hlast, Nat.mod_eq_of_lt (show 1 < s.memTblSize by omega),
      Nat.sub_add_cancel (by omega), Nat.mod_self]
  · rw [Nat.add_mod, Nat.mod_eq_of_lt (show 1 < s.memTblSize by omega)]
    exact (Nat.mod_eq_of_lt (by omega)).symm

theorem Snapshot.nextId_ne (s : Snapshot) (hsize : 3 ≤ s.memTblSize) {mid : Nat} :
    s.nextId mid ≠ mid := by
  rw [Snapshot.nextId]
  split <;> omega

namespace Core

section

variable (h : Core tagHash start bound s hist)
include h

/-- A slot with a saved table may be cleared. -/
theorem clear {mid : Nat} (hstate : (s.memTable mid).state = .flushed) :
    Core tagHash start bound (s.setMemTable mid .zero) hist := by
  refine h.update rfl (fun mid' hmid' => s.setMemTable_of_ne _ hmid') le_rfl
    le_rfl (fun _ _ _ => rfl) (.inl rfl) (fun _ hlt _ _ => hlt) (by omega) ?_ ?_ h.length
    h.saved_le h.disk h.noTableZero h.filled h.ordered h.range h.metaOk h.metaFile
  · rw [setMemTable_self]
    rfl
  · intro tid hlt hle heq
    exact absurd heq (h.not_live_of_state (.inr hstate) hlt hle)

/-- The slot for the next table is saved, if need be, and cleared. -/
theorem reclaim (hnone : ∀ mid < s.memTblSize, (s.memTable mid).state ≠ .active) :
    ∃ s', s.reclaim (slotOf s.memTblSize (hist.length + 1)) = some s' ∧
      Core tagHash start bound s' hist ∧
      s'.memTable (slotOf s.memTblSize (hist.length + 1)) = .zero ∧
      Beside (slotOf s.memTblSize (hist.length + 1)) s s' := by
  have hsize := h.size
  have hmid := slotOf_lt hsize (hist.length + 1)
  have hslots := h.slots _ hmid
  -- In the ring of unsaved tables the next slot can only be that of the oldest one.
  have htid : (s.memTable (slotOf s.memTblSize (hist.length + 1))).state = .inactive →
      (s.memTable (slotOf s.memTblSize (hist.length + 1))).data.idxTableId =
        s.metaData.maxIdxTableId + 1 := by
    intro hstate
    obtain ⟨-, hu⟩ := hslots.of_inactive hstate
    have hwindow := h.window
    have hle := hu.le_length
    have hlt := hu.saved_lt
    have hslot := hu.slot
    by_cases hfull : hist.length = s.metaData.maxIdxTableId + s.memTblSize
    · have hlap : slotOf s.memTblSize (hist.length + 1) =
          slotOf s.memTblSize (s.metaData.maxIdxTableId + 1) := by
        rw [slotOf_succ, slotOf_succ, hfull, Nat.add_mod_right]
      exact slotOf_inj hsize (hslot.trans hlap) hlt (by omega) (by omega) (by omega)
    · have := slotOf_inj hsize hslot hlt (by omega) (by omega) (by omega)
      omega
  generalize slotOf s.memTblSize (hist.length + 1) = mid at *
  rw [Snapshot.reclaim]
  cases hstate : (s.memTable mid).state with
  | free =>
    simp only [reduceCtorEq, if_false, map_some, hstate]
    exact ⟨s, rfl, h, hslots.zero hstate, ⟨rfl, fun _ _ => rfl, rfl, rfl, rfl⟩⟩
  | active => exact absurd hstate (hnone mid hmid)
  | inactive =>
    obtain ⟨s', hs', hcore, hflushed, hb⟩ := h.writeTable hmid hstate (htid hstate)
    simp only [if_true, hs', map_some, hflushed]
    refine ⟨_, rfl, hcore.clear hflushed, setMemTable_self _ _ _,
      { hb with memTable := ?_ }⟩
    intro mid' hmid'
    rw [Snapshot.setMemTable_of_ne _ _ hmid', hb.memTable mid' hmid']
  | flushed =>
    simp only [reduceCtorEq, if_false, map_some, hstate]
    exact ⟨_, rfl, h.clear hstate, setMemTable_self _ _ _,
      ⟨rfl, fun mid' hmid' => Snapshot.setMemTable_of_ne _ _ hmid', rfl, rfl, rfl⟩⟩

/-- A cleared slot becomes a table without entries. -/
theorem newActive (lsn : Nat) (hnone : ∀ mid < s.memTblSize, (s.memTable mid).state ≠ .active)
    (hfilled : ∀ tid, 0 < tid → tid ≤ hist.length → runAt hist tid ≠ [])
    (hzero : s.memTable (slotOf s.memTblSize (hist.length + 1)) = .zero) :
    Core tagHash start bound
      { s.setMemTable (slotOf s.memTblSize (hist.length + 1))
          (MemTable.zero.newActive (s.maxIdxTableId + 1) lsn) with
        maxIdxTableId := s.maxIdxTableId + 1 } (hist ++ [[]]) := by
  have hsaved := h.saved_le
  have hrun : ∀ tid ≤ hist.length, runAt (hist ++ [[]]) tid = runAt hist tid := fun tid htid =>
    runAt_append_of_le htid
  refine h.update rfl (fun mid' hmid' => s.setMemTable_of_ne _ hmid') (by simp) le_rfl
    (fun tid htid _ => hrun tid htid) (.inr fun mid' hmid' _ => hnone mid' hmid')
    (fun _ hlt _ _ => hlt) ?_ ?_ ?_ (by simp [h.length]) ?_ ?_ h.noTableZero ?_ ?_ ?_ ?_ h.metaFile
  · intro tid hlt hle
    simp only [length_append, length_singleton] at hle
    rw [show tid = hist.length + 1 by omega]
  · rw [setMemTable_self, h.length]
    refine ⟨by simp [MemTable.newActive], ?_, ?_, rfl, ?_⟩
    · exact Nat.lt_succ_of_le hsaved
    · simp [MemTable.newActive]
    · have hempty : runAt (hist ++ [[]]) (hist.length + 1) = [] := runAt_concat hist []
      exact ⟨⟨[], hempty.symm ▸ Layout.empty rfl rfl rfl⟩, rfl, congrArg firstLsn hempty.symm,
        congrArg lastLsn hempty.symm⟩
  · intro tid hlt hle heq
    rcases lt_or_ge hist.length tid with hgt | hge
    · simp only [length_append, length_singleton] at hle
      refine ⟨?_, .inl ?_⟩
      · rw [setMemTable_self, h.length]
        show hist.length + 1 = tid
        omega
      · rw [setMemTable_self]
        rfl
    · refine absurd heq (h.not_live_of_state (.inl ?_) hlt hge)
      rw [hzero]
      rfl
  · simp only [length_append]
    exact Nat.le_succ_of_le hsaved
  · intro tid hpos hmin hle
    exact (h.disk tid hpos hmin hle).congr (hrun tid (le_trans hle hsaved))
  · intro tid hpos hlt
    simp only [length_append, length_singleton] at hlt
    rw [hrun tid (by omega)]
    exact hfilled tid hpos (by omega)
  · simpa using h.ordered
  · simpa using h.range
  · exact h.metaOk.congr (take_append_of_le_length hsaved)

theorem waitActive (lsn : Nat) (hnone : ∀ mid < s.memTblSize, (s.memTable mid).state ≠ .active)
    (hfilled : ∀ tid, 0 < tid → tid ≤ hist.length → runAt hist tid ≠ []) :
    ∃ s', s.waitActive (slotOf s.memTblSize (hist.length + 1)) lsn = some s' ∧
      Core tagHash start bound s' (hist ++ [[]]) ∧
      s'.memTable (slotOf s.memTblSize (hist.length + 1)) =
        MemTable.zero.newActive (hist.length + 1) lsn ∧
      s'.memTblSize = s.memTblSize ∧ s'.activeTable = s.activeTable ∧ s'.adding = s.adding := by
  obtain ⟨s₁, hreclaim, hcore, hzero, hb⟩ := h.reclaim hnone
  rw [← hb.memTblSize] at hzero
  have hnone₁ : ∀ mid < s₁.memTblSize, (s₁.memTable mid).state ≠ .active := by
    intro mid hmid
    by_cases heq : mid = slotOf s₁.memTblSize (hist.length + 1)
    · rw [heq, hzero]
      exact fun hstate => TblState.noConfusion hstate
    · rw [hb.memTblSize] at hmid heq
      rw [hb.memTable mid heq]
      exact hnone mid hmid
  have hnew := hcore.newActive lsn hnone₁ hfilled hzero
  rw [Snapshot.waitActive, hreclaim, bind_some, ← hb.memTblSize]
  have hfree : MemTable.zero.state = .free := rfl
  simp only [hzero, hfree, if_true]
  rw [if_pos]
  · refine ⟨_, rfl, hnew, ?_, rfl, hb.activeTable, hb.adding⟩
    rw [setMemTable_self, hcore.length]
  · rw [setMemTable_self]
    exact ⟨rfl, show ¬ ((1 == memTblSegNum) = true) by decide⟩

theorem close (hstate : (s.memTable (slotOf s.memTblSize hist.length)).state = .active)
    (hne : runAt hist hist.length ≠ []) :
    Core tagHash start bound (s.setMemTable (slotOf s.memTblSize hist.length)
      { s.memTable (slotOf s.memTblSize hist.length) with state := .inactive }) hist := by
  obtain ⟨htid, hu⟩ := (h.slots _ (slotOf_lt h.size _)).of_active hstate
  refine h.update rfl (fun mid' hmid' => s.setMemTable_of_ne _ hmid') le_rfl
    le_rfl (fun _ _ _ => rfl) (.inl rfl) (fun _ hlt _ _ => hlt) (by omega) ?_ ?_ h.length
    h.saved_le h.disk h.noTableZero h.filled h.ordered h.range h.metaOk h.metaFile
  · rw [setMemTable_self]
    exact ⟨by rwa [htid], { hu with }⟩
  · intro tid hlt hle heq
    rw [setMemTable_self]
    exact ⟨heq ▸ (h.live tid hlt hle).1, .inr rfl⟩

end

/-- An LSN is put into the active table. -/
theorem put {init : List (List Entry)} {run : List Entry} {e : Entry} {m : MemTable}
    (h : Core tagHash start bound s (init ++ [run])) (maxLsn : Nat)
    (hold : (s.memTable (slotOf s.memTblSize (init.length + 1))).state = .active)
    (hstate : m.state = .active)
    (hstores : Stores tagHash m.data m.freeHead (init.length + 1) (run ++ [e]))
    (hordered : Ordered ((init ++ [run]).flatten ++ [e]))
    (hrange : invalidLsn < e.lsn ∧ e.lsn < uint64Max) :
    Core tagHash start bound
      { s.setMemTable (slotOf s.memTblSize (init.length + 1)) m with maxLsn }
      (init ++ [run ++ [e]]) := by
  obtain ⟨htid, hu⟩ := (h.slots _ (slotOf_lt h.size _)).of_active hold
  have hsaved := hu.saved_lt
  have hlength : (init ++ [run]).length = init.length + 1 := by simp
  have hlength' : (init ++ [run ++ [e]]).length = init.length + 1 := by simp
  rw [htid, hlength] at hsaved
  have hrun : ∀ tid ≤ init.length,
      runAt (init ++ [run ++ [e]]) tid = runAt (init ++ [run]) tid := by
    intro tid hle
    rw [runAt_append_of_le hle, runAt_append_of_le hle]
  have hflatten : (init ++ [run ++ [e]]).flatten = (init ++ [run]).flatten ++ [e] := by simp
  refine h.update rfl (fun mid' hmid' => s.setMemTable_of_ne _ hmid') (by rw [hlength, hlength'])
    le_rfl ?_ (.inl (hlength'.trans hlength.symm)) (fun _ hlt _ _ => hlt)
    (fun tid hlt hle => by omega) ?_ ?_ (h.length.trans (hlength.trans hlength'.symm)) ?_ ?_
    h.noTableZero ?_ (hflatten ▸ hordered) ?_ ?_ h.metaFile
  · intro tid hle hother
    refine hrun tid ?_
    rcases hother with hother | hother
    · have hne : tid ≠ init.length + 1 := by
        rintro rfl
        exact hother rfl
      omega
    · omega
  · have hdata := hstores.idxTableId
    rw [setMemTable_self, SlotOk, hstate]
    refine ⟨hdata.trans hlength'.symm, ⟨?_, ?_, by rw [hdata], ?_⟩⟩
    · rwa [hdata]
    · rw [hdata, hlength']
    · rwa [hdata, runAt_concat]
  · intro tid hlt hle heq
    rw [setMemTable_self, hstores.idxTableId]
    refine ⟨?_, .inl hstate⟩
    have := (h.live tid hlt (by omega)).1
    rw [heq, htid, hlength] at this
    exact this
  · rw [hlength']
    exact le_of_lt hsaved
  · intro tid hpos hmin hle
    refine (h.disk tid hpos hmin hle).congr (hrun tid ?_)
    exact Nat.le_of_lt_succ (lt_of_le_of_lt hle hsaved)
  · intro tid hpos hlt
    rw [hrun tid (by omega)]
    exact h.filled tid hpos (by omega)
  · rw [hflatten]
    exact forall_mem_append.mpr ⟨h.range, forall_mem_singleton.mpr hrange⟩
  · refine h.metaOk.congr ?_
    have hle := Nat.le_of_lt_succ hsaved
    rw [take_append_of_le_length hle, take_append_of_le_length hle]

theorem activeStores {init : List (List Entry)} {run : List Entry}
    (h : Core tagHash start bound s (init ++ [run]))
    (hactive : s.activeTable = slotOf s.memTblSize (init.length + 1))
    (hstate : (s.memTable s.activeTable).state = .active) :
    Stores tagHash (s.memTable s.activeTable).data (s.memTable s.activeTable).freeHead
      (init.length + 1) run := by
  have hslot := h.slots _ (slotOf_lt h.size (init.length + 1))
  rw [← hactive] at hslot
  obtain ⟨htid, hu⟩ := hslot.of_active hstate
  have hstores := hu.stores
  rwa [htid, runAt_concat_length, length_append] at hstores

end Core

end Polar.Logindex
