import Polar.Logindex.Active

/-!
# Adding LSNs

`polar_logindex_add_lsn` appends its entry to the log of the snapshot, in the active table or, when
that is full or covers another 4 GB range, as the first entry of a new table.
-/

namespace Polar.Logindex

open List
open Option (bind_some map_some)

variable {tagHash : BufferTag → Nat} {start bound : Nat} {s : Snapshot} {hist : List (List Entry)}

/-! ## Inserting an LSN -/

theorem Ordered.last_run {init : List (List Entry)} {run : List Entry} {e : Entry}
    (h : Ordered ((init ++ [run]).flatten ++ [e])) : Ordered (run ++ [e]) := by
  have hflat : (init ++ [run]).flatten ++ [e] = init.flatten ++ (run ++ [e]) := by simp
  rw [hflat] at h
  exact (pairwise_append.mp h).2.1

/-- The active table has a segment for `lsn`; its entries are `run`. -/
structure Ready (tagHash : BufferTag → Nat) (start bound : Nat) (s : Snapshot)
    (init : List (List Entry)) (run : List Entry) (lsn : Nat) : Prop where
  core : Core tagHash start bound s (init ++ [run])
  activeTable : s.activeTable = slotOf s.memTblSize (init.length + 1)
  state : (s.memTable s.activeTable).state = .active
  room : (s.memTable s.activeTable).freeHead < memTblSegNum
  fits : (s.memTable s.activeTable).isNew ∨ (s.memTable s.activeTable).data.samePrefix lsn

namespace MemTable

/-- The active table once an LSN with these upper bits is to come. -/
def withPrefix (m : MemTable) (lsn : Nat) : MemTable :=
  { m with data := { m.data with prefixLsn := lsn >>> 32 } }

theorem withPrefix_of_samePrefix {m : MemTable} {lsn : Nat} (h : m.data.samePrefix lsn) :
    m.withPrefix lsn = m := by
  rw [withPrefix, ← beq_iff_eq.mp h]

end MemTable

namespace Ready

variable {init : List (List Entry)} {run : List Entry} {lsn : Nat}

section

variable (h : Ready tagHash start bound s init run lsn)
include h

theorem nextFreeSegLoop (fuel : Nat) : s.nextFreeSegLoop lsn (fuel + 1) =
      some (s.takeSeg ((s.memTable s.activeTable).withPrefix lsn)) := by
  simp only [Snapshot.nextFreeSegLoop]
  rw [if_pos h.state]
  by_cases hnew : (s.memTable s.activeTable).isNew
  · rw [if_pos hnew]
    rfl
  · have hsame := h.fits.resolve_left hnew
    have hroom : ¬ (s.memTable s.activeTable).full := fun hfull =>
      ne_of_lt h.room (beq_iff_eq.mp hfull)
    rw [if_neg hnew, if_neg, MemTable.withPrefix_of_samePrefix hsame]
    rintro (hfull | hother)
    · exact hroom hfull
    · exact hother hsame

theorem run_eq_nil (hnew : (s.memTable s.activeTable).isNew) : run = [] := by
  simp only [MemTable.isNew, Bool.and_eq_true, beq_iff_eq] at hnew
  by_contra hne
  obtain ⟨e, he, hlast⟩ := exists_mem_lastLsn hne
  have hpos := (h.core.range e (by simp [he])).1
  rw [hlast, ← (h.core.activeStores h.activeTable h.state).maxLsn, hnew.1.1.1] at hpos
  exact lt_irrefl _ hpos

theorem stores : Stores tagHash ((s.memTable s.activeTable).withPrefix lsn).data
      (s.memTable s.activeTable).freeHead (init.length + 1) run := by
  have hstores := h.core.activeStores h.activeTable h.state
  rcases h.fits with hnew | hsame
  · obtain rfl := h.run_eq_nil hnew
    exact hstores.setPrefix _
  · rwa [MemTable.withPrefix_of_samePrefix hsame]

end

end Ready

/-- A table that has just been opened is ready. -/
theorem Core.ready {s' : Snapshot} {lsn : Nat} (h : Core tagHash start bound s' (hist ++ [[]]))
    (hactive : s'.activeTable = slotOf s'.memTblSize (hist.length + 1))
    (hnew : s'.memTable s'.activeTable = MemTable.zero.newActive (hist.length + 1) lsn) :
    Ready tagHash start bound s' hist [] lsn := by
  refine ⟨h, hactive, ?_, ?_, .inr ?_⟩
  · rw [hnew]
    rfl
  · rw [hnew]
    exact show 1 < memTblSegNum by decide
  · rw [hnew]
    exact beq_self_eq_true _

/-- `log_index_next_free_seg` finds a segment of the active table, or of a new one. -/
structure NextSeg (tagHash : BufferTag → Nat) (start bound : Nat) (s : Snapshot)
    (hist : List (List Entry)) (lsn : Nat) (s' : Snapshot) (init : List (List Entry))
    (run : List Entry) : Prop where
  ready : Ready tagHash start bound s' init run lsn
  result : s.nextFreeSeg lsn =
    some (s'.takeSeg ((s'.memTable s'.activeTable).withPrefix lsn))
  adding : s'.adding = s.adding
  place : (s' = s ∧ hist = init ++ [run]) ∨
    (init = hist ∧ run = [] ∧ (s'.activeTable = s.activeTable → hist = []))

namespace Inv

theorem nextSeg_first (h : Inv tagHash start bound s []) (lsn : Nat) :
    ∃ s', NextSeg tagHash start bound s [] lsn s' [] [] := by
  obtain ⟨hactive, hfree⟩ := h.first rfl
  have hslot : slotOf s.memTblSize (([] : List (List Entry)).length + 1) = s.activeTable := by
    rw [hactive]
    exact Nat.zero_mod _
  have hnone : ∀ mid < s.memTblSize, (s.memTable mid).state ≠ .active := by
    intro mid hmid hstate
    obtain ⟨htid, hu⟩ := (h.slots mid hmid).of_active hstate
    exact Nat.not_lt_zero _ (htid ▸ hu.saved_lt)
  obtain ⟨s', hwait, hcore, hnew, hsize', hactive', hadding⟩ := h.toCore.waitActive lsn hnone
    (fun tid hpos hle => absurd hpos (Nat.not_lt.mpr hle))
  have hready := hcore.ready (by rw [hactive', hsize', hslot]) (by rwa [hactive', ← hslot])
  refine ⟨s', hready, ?_, hadding, .inr ⟨rfl, rfl, fun _ => rfl⟩⟩
  rw [hslot] at hwait
  rw [← hready.nextFreeSegLoop 0]
  simp only [Snapshot.nextFreeSeg, Snapshot.nextFreeSegLoop]
  rw [if_neg (by rw [hactive, hfree]; exact TblState.noConfusion), hwait, bind_some]

variable {init : List (List Entry)} {run : List Entry} {lsn : Nat}

/-- The active table has a segment. -/
theorem nextSeg_keep (h : Inv tagHash start bound s (init ++ [run]))
    (hkeep : (s.memTable s.activeTable).isNew ∨
      (¬ (s.memTable s.activeTable).full ∧ (s.memTable s.activeTable).data.samePrefix lsn)) :
    NextSeg tagHash start bound s (init ++ [run]) lsn s init run := by
  obtain ⟨hactive, hstate⟩ := h.active (by simp)
  have hready : Ready tagHash start bound s init run lsn := by
    refine ⟨h.toCore, by rw [hactive, length_append]; rfl, hstate, ?_, hkeep.imp id And.right⟩
    rcases hkeep with hnew | ⟨hroom, -⟩
    · simp only [MemTable.isNew, Bool.and_eq_true, beq_iff_eq] at hnew
      rw [hnew.2]
      decide
    · obtain ⟨-, hu⟩ := (h.slots _ (slotOf_lt h.size _)).of_active (hactive ▸ hstate)
      obtain ⟨heads, hlayout⟩ := hu.stores.layout
      rw [← hactive] at hlayout
      exact lt_of_le_of_ne hlayout.free_le fun heq => hroom (beq_iff_eq.mpr heq)
  exact ⟨hready, hready.nextFreeSegLoop 1, rfl, .inl ⟨rfl, rfl⟩⟩

/-- The active table is closed and the next one opened. -/
theorem nextSeg_turn (h : Inv tagHash start bound s (init ++ [run]))
    (hnew : ¬ (s.memTable s.activeTable).isNew) (hleave : (s.memTable s.activeTable).full ∨
      ¬ (s.memTable s.activeTable).data.samePrefix lsn) :
    ∃ s', NextSeg tagHash start bound s (init ++ [run]) lsn s' (init ++ [run]) [] := by
  have hsize := h.size
  have hne : init ++ [run] ≠ [] := by simp
  obtain ⟨hactive, hstate⟩ := h.active hne
  have hfilled : runAt (init ++ [run]) (init ++ [run]).length ≠ [] := fun hempty =>
    hnew (h.fresh hne hempty)
  have hclose := h.toCore.close (hactive ▸ hstate) hfilled
  rw [← hactive] at hclose
  have hnone : ∀ mid < s.memTblSize, ((s.setMemTable s.activeTable
      { s.memTable s.activeTable with state := .inactive }).memTable mid).state ≠ .active := by
    intro mid hmid hother
    by_cases heq : mid = s.activeTable
    · rw [heq, Snapshot.setMemTable_self] at hother
      exact TblState.noConfusion hother
    · rw [Snapshot.setMemTable_of_ne _ _ heq] at hother
      obtain ⟨htid, hu⟩ := (h.slots mid hmid).of_active hother
      exact heq (hu.slot.symm.trans (htid ▸ hactive.symm))
  obtain ⟨s', hwait, hcore, hnewActive, hsize', hactive', hadding⟩ :=
    hclose.waitActive lsn hnone (fun tid hpos hle => by
      rcases lt_or_eq_of_le hle with hlt | rfl
      · exact h.filled tid hpos hlt
      · exact hfilled)
  have hnext : s.nextId s.activeTable = slotOf s.memTblSize ((init ++ [run]).length + 1) := by
    rw [hactive]
    exact nextId_slotOf hsize (length_pos_iff.mpr hne)
  change Snapshot.waitActive _ (slotOf s.memTblSize _) _ = _ at hwait
  rw [← hnext] at hwait
  have hready : Ready tagHash start bound { s' with activeTable := s.nextId s.activeTable }
      (init ++ [run]) [] lsn := by
    refine Core.ready { hcore with } ?_ ?_
    · rw [hnext, hsize']
      rfl
    · rwa [hnext]
  refine ⟨_, hready, ?_, hadding, .inr ⟨rfl, rfl, fun heq => ?_⟩⟩
  · rw [← hready.nextFreeSegLoop 0]
    simp only [Snapshot.nextFreeSeg, Snapshot.nextFreeSegLoop]
    rw [if_pos hstate, if_neg hnew, if_pos hleave, hwait, bind_some]
  · exact absurd heq (s.nextId_ne hsize)

theorem nextFreeSeg (h : Inv tagHash start bound s hist) (lsn : Nat) :
    ∃ s' init run, NextSeg tagHash start bound s hist lsn s' init run := by
  rcases hist.eq_nil_or_concat' with rfl | ⟨init, run, rfl⟩
  · obtain ⟨s', hs'⟩ := h.nextSeg_first lsn
    exact ⟨s', [], [], hs'⟩
  · by_cases hkeep : (s.memTable s.activeTable).isNew ∨
        (¬ (s.memTable s.activeTable).full ∧ (s.memTable s.activeTable).data.samePrefix lsn)
    · exact ⟨s, init, run, h.nextSeg_keep hkeep⟩
    · rw [not_or, not_and_or, not_not] at hkeep
      obtain ⟨s', hs'⟩ := h.nextSeg_turn hkeep.1 hkeep.2
      exact ⟨s', _, _, hs'⟩

end Inv

namespace Snapshot

theorem noteLsn_setMemTable (s : Snapshot) (m : MemTable) (t : Table) (lsn : Nat) :
    (s.setMemTable s.activeTable m).noteLsn t lsn =
      { s.setMemTable s.activeTable { m with
          data := { t with maxLsn := max lsn t.maxLsn, minLsn := min lsn t.minLsn } } with
        maxLsn := max lsn t.maxLsn } := by
  rw [noteLsn, show (s.setMemTable s.activeTable m).activeTable = s.activeTable from rfl,
    setMemTable_self]
  simp only [setMemTable, Function.update_idem]

end Snapshot

section Insert

variable {init : List (List Entry)} {run : List Entry} {e : Entry}

theorem Inv.put {m : MemTable} (h : Core tagHash start bound s (init ++ [run])) (maxLsn : Nat)
    (hactive : s.activeTable = slotOf s.memTblSize (init.length + 1))
    (hold : (s.memTable s.activeTable).state = .active) (hstate : m.state = .active)
    (hstores : Stores tagHash m.data m.freeHead (init.length + 1) (run ++ [e]))
    (hordered : Ordered ((init ++ [run]).flatten ++ [e]))
    (hrange : invalidLsn < e.lsn ∧ e.lsn < uint64Max) :
    Inv tagHash start bound { s.setMemTable s.activeTable m with maxLsn }
      (init ++ [run ++ [e]]) := by
  have hcore := h.put maxLsn (hactive ▸ hold) hstate hstores hordered hrange
  rw [← hactive] at hcore
  refine { hcore with active := fun _ => ⟨?_, ?_⟩, first := ?_, fresh := ?_ }
  · rwa [length_append]
  · show ((s.setMemTable _ _).memTable s.activeTable).state = .active
    rwa [Snapshot.setMemTable_self]
  · intro hnil
    simp at hnil
  · intro _ hnil
    rw [runAt_concat_length] at hnil
    simp at hnil

variable {t' : Table} {heads : List (Nat × BufferTag)}

section

variable (h : Ready tagHash start bound s init run e.lsn)
include h

variable (hordered : Ordered ((init ++ [run]).flatten ++ [e]))
include hordered

/-- An insertion into a segment taken from the active table. -/
theorem Ready.put (hrange : invalidLsn < e.lsn ∧ e.lsn < uint64Max)
    (hlayout : Layout tagHash t' ((s.memTable s.activeTable).freeHead + 1) heads (run ++ [e]))
    (hinfo : SameInfo ((s.memTable s.activeTable).withPrefix e.lsn).data t') :
    Inv tagHash start bound
      ((s.takeSeg ((s.memTable s.activeTable).withPrefix e.lsn)).1.noteLsn t' e.lsn)
      (init ++ [run ++ [e]]) := by
  rw [Snapshot.takeSeg, Snapshot.noteLsn_setMemTable]
  exact Inv.put h.core _ h.activeTable h.state h.state
    (h.stores.note hordered.last_run hrange.2 hlayout hinfo) hordered hrange

/-- `log_index_insert_new_item` for a page that the active table has no entry of. -/
theorem Ready.insertNewItem
    (hrange : invalidLsn < e.lsn ∧ e.lsn < uint64Max) (hnone : ∀ e' ∈ run, e'.tag ≠ e.tag) :
    ∃ t', (((s.memTable s.activeTable).withPrefix e.lsn).data.insertNewItem ⟨e, invalidLsn⟩
        (hashPage tagHash e.tag) (s.memTable s.activeTable).freeHead).addOrder
          (s.memTable s.activeTable).freeHead 0 = some t' ∧
      Inv tagHash start bound
        ((s.takeSeg ((s.memTable s.activeTable).withPrefix e.lsn)).1.noteLsn t' e.lsn)
        (init ++ [run ++ [e]]) := by
  obtain ⟨heads, hlayout⟩ := h.stores.layout
  obtain ⟨t', ht', hlayout', hinfo⟩ := hlayout.insertNewItem (fun head hmem => by
    obtain ⟨e', he', htag⟩ := hlayout.tag_mem hmem
    exact hnone e' he' htag) h.room rfl
  exact ⟨t', ht', h.put hordered hrange hlayout' hinfo⟩

/-- The entry opens another segment of its page. -/
theorem Ready.insertNewSeg (hrange : invalidLsn < e.lsn ∧ e.lsn < uint64Max)
    (hsame : (s.memTable s.activeTable).data.samePrefix e.lsn) {head : Nat}
    (hlayout : Layout tagHash (s.memTable s.activeTable).data (s.memTable s.activeTable).freeHead
      heads run) (hmem : (head, e.tag) ∈ heads)
    (hfull : (s.memTable s.activeTable).data.memSegFull head = some true) :
    ∃ t t', ((s.memTable s.activeTable).withPrefix e.lsn).data.insertNewSeg head
        (s.memTable s.activeTable).freeHead e.lsn = some t ∧
      t.addOrder (s.memTable s.activeTable).freeHead 0 = some t' ∧
      Inv tagHash start bound
        ((s.takeSeg ((s.memTable s.activeTable).withPrefix e.lsn)).1.noteLsn t' e.lsn)
        (init ++ [run ++ [e]]) := by
  obtain ⟨t, t', hseg, horder, hlayout', hinfo⟩ :=
    hlayout.insertNewSeg hmem hfull h.room (beq_iff_eq.mp hsame).symm
  rw [← MemTable.withPrefix_of_samePrefix hsame] at hinfo
  refine ⟨t, t', ?_, horder, h.put hordered hrange hlayout' hinfo⟩
  rwa [MemTable.withPrefix_of_samePrefix hsame]

end

/-- A snapshot with an active table has a last run. -/
theorem Inv.exists_run (h : Inv tagHash start bound s hist)
    (hstate : (s.memTable s.activeTable).state = .active) : ∃ init run, hist = init ++ [run] := by
  rcases hist.eq_nil_or_concat' with rfl | hconcat
  · obtain ⟨hactive, hfree⟩ := h.first rfl
    rw [hactive, hfree] at hstate
    exact TblState.noConfusion hstate
  · exact hconcat

/-- The entry goes to the end of its page's last segment. -/
theorem Inv.insertLsn_append (h : Inv tagHash start bound s (init ++ [run]))
    (hordered : Ordered ((init ++ [run]).flatten ++ [e]))
    (hrange : invalidLsn < e.lsn ∧ e.lsn < uint64Max)
    (hsame : (s.memTable s.activeTable).data.samePrefix e.lsn) {head : Nat}
    (hlayout : Layout tagHash (s.memTable s.activeTable).data (s.memTable s.activeTable).freeHead
      heads run) (hmem : (head, e.tag) ∈ heads)
    (hfull : (s.memTable s.activeTable).data.memSegFull head = some false) :
    ∃ t idx item t', (s.memTable s.activeTable).data.appendLsn head e.lsn = some (t, idx) ∧
      t.itemHead head = some item ∧ t.addOrder item.tailSeg idx = some t' ∧
      Inv tagHash start bound (s.noteLsn t' e.lsn) (init ++ [run ++ [e]]) := by
  obtain ⟨hactive, hstate⟩ := h.active (by simp)
  have hrun := hordered.last_run
  have hslot : s.activeTable = slotOf s.memTblSize (init.length + 1) := by
    rw [hactive, length_append]
    rfl
  have hlt : ∀ e' ∈ run, e'.tag = e.tag → e'.lsn < e.lsn := fun e' he' =>
    ((pairwise_append.mp hrun).2.2 e' he' e mem_cons_self).2
  obtain ⟨t, idx, item, t', happend, hitem, horder, hlayout', hinfo⟩ :=
    hlayout.appendLsn hmem hfull hlt (beq_iff_eq.mp hsame).symm
  refine ⟨t, idx, item, t', happend, hitem, horder, ?_⟩
  exact Inv.put h.toCore _ hslot hstate hstate
    ((h.toCore.activeStores hslot hstate).note hrun hrange.2 hlayout' hinfo) hordered hrange

variable (h : Inv tagHash start bound s hist)
include h

/-- A page that is not found in the active table has no entry there. -/
theorem Inv.tag_ne_of_existsPage (hpage : (if (s.memTable s.activeTable).state = .active ∧
        (s.memTable s.activeTable).data.samePrefix e.lsn then
      (s.memTable s.activeTable).data.existsPage e.tag (hashPage tagHash e.tag)
      else invalidSeg) = invalidSeg) (init : List (List Entry)) (run : List Entry)
    (hsplit : hist = init ++ [run]) (hsame : (s.memTable s.activeTable).data.samePrefix e.lsn) :
    ∀ e' ∈ run, e'.tag ≠ e.tag := by
  subst hsplit
  obtain ⟨hactive, hstate⟩ := h.active (by simp)
  rw [length_append] at hactive
  obtain ⟨heads, hlayout⟩ := (h.toCore.activeStores hactive hstate).layout
  rw [if_pos ⟨hstate, hsame⟩] at hpage
  intro e' he' htag
  obtain ⟨head, hhead⟩ := hlayout.covered e' he'
  rcases hlayout.existsPage e.tag with hmem | ⟨-, hnone⟩
  · exact (hlayout.head_ne hmem).1 hpage
  · exact hnone head (htag ▸ hhead)

/-- The part of `log_index_insert_lsn` that takes a segment. -/
theorem Inv.insertLsn_takeSeg
    (hordered : Ordered (hist.flatten ++ [e])) (hrange : invalidLsn < e.lsn ∧ e.lsn < uint64Max)
    {head : Nat} (hnone : head = invalidSeg → ∀ init run, hist = init ++ [run] →
      (s.memTable s.activeTable).data.samePrefix e.lsn → ∀ e' ∈ run, e'.tag ≠ e.tag)
    (hitem : head ≠ invalidSeg → (s.memTable s.activeTable).data.samePrefix e.lsn ∧
      ∃ init run heads, hist = init ++ [run] ∧
        Layout tagHash (s.memTable s.activeTable).data (s.memTable s.activeTable).freeHead
          heads run ∧ (head, e.tag) ∈ heads ∧
        (s.memTable s.activeTable).data.memSegFull head = some true) :
    ∃ s₁ dst t t' hist', s.nextFreeSeg e.lsn = some (s₁, dst) ∧
      (if head = invalidSeg ∨ s₁.activeTable ≠ s.activeTable then
          some ((s₁.memTable s₁.activeTable).data.insertNewItem ⟨e, invalidLsn⟩
            (hashPage tagHash e.tag) dst)
        else (s₁.memTable s₁.activeTable).data.insertNewSeg head dst e.lsn) = some t ∧
      t.addOrder dst 0 = some t' ∧ Inv tagHash start bound (s₁.noteLsn t' e.lsn) hist' ∧
      Appends e hist hist' ∧ s₁.adding = s.adding := by
  obtain ⟨s', init, run, hseg⟩ := h.nextFreeSeg e.lsn
  have hdata : ((s'.takeSeg ((s'.memTable s'.activeTable).withPrefix e.lsn)).1.memTable
      s'.activeTable).data = ((s'.memTable s'.activeTable).withPrefix e.lsn).data := by
    rw [Snapshot.takeSeg, Snapshot.setMemTable_self]
  refine ⟨(s'.takeSeg ((s'.memTable s'.activeTable).withPrefix e.lsn)).1,
    (s'.memTable s'.activeTable).freeHead, ?_⟩
  rw [show (s'.takeSeg _).1.activeTable = s'.activeTable from rfl, hdata]
  rcases hseg.place with ⟨rfl, rfl⟩ | ⟨rfl, rfl, hmoved⟩
  · by_cases hhead : head = invalidSeg
    · have hne : ∀ e' ∈ run, e'.tag ≠ e.tag := by
        rcases hseg.ready.fits with hnew | hsame
        · rw [hseg.ready.run_eq_nil hnew]
          exact fun e' he' => absurd he' not_mem_nil
        · exact hnone hhead init run rfl hsame
      obtain ⟨t', ht', hinv⟩ := hseg.ready.insertNewItem hordered hrange hne
      exact ⟨_, t', _, hseg.result, if_pos (.inl hhead), ht', hinv, .last init run, hseg.adding⟩
    · obtain ⟨hsame, init', run', heads, hsplit, hlayout, hmem, hfull⟩ := hitem hhead
      obtain ⟨rfl, hrun⟩ := append_inj' hsplit rfl
      obtain rfl := singleton_inj.mp hrun
      obtain ⟨t, t', ht, ht', hinv⟩ :=
        hseg.ready.insertNewSeg hordered hrange hsame hlayout hmem hfull
      refine ⟨t, t', _, hseg.result, ?_, ht', hinv, .last init run, hseg.adding⟩
      rwa [if_neg (not_or.mpr ⟨hhead, not_not.mpr rfl⟩)]
  · obtain ⟨t', ht', hinv⟩ := hseg.ready.insertNewItem (by simpa using hordered) hrange
      (fun e' he' => absurd he' not_mem_nil)
    refine ⟨_, t', _, hseg.result, if_pos ?_, ht', hinv, .fresh init, hseg.adding⟩
    by_cases hhead : head = invalidSeg
    · exact .inl hhead
    · obtain ⟨-, init', run', -, rfl, -⟩ := hitem hhead
      exact .inr fun heq => by simpa using hmoved heq

/-- `log_index_insert_lsn` puts the entry at the end of the log. -/
theorem Inv.insertLsn
    (hordered : Ordered (hist.flatten ++ [e])) (hrange : invalidLsn < e.lsn ∧ e.lsn < uint64Max) :
    ∃ s' hist', s.insertLsn ⟨e, invalidLsn⟩ (hashPage tagHash e.tag) = some s' ∧
      Inv tagHash start bound s' hist' ∧ Appends e hist hist' ∧ s'.adding = s.adding := by
  simp only [Snapshot.insertLsn]
  generalize hpage : (if (s.memTable s.activeTable).state = .active ∧
      (s.memTable s.activeTable).data.samePrefix e.lsn then
    (s.memTable s.activeTable).data.existsPage e.tag (hashPage tagHash e.tag)
    else invalidSeg) = head
  by_cases hhead : head = invalidSeg
  · obtain ⟨s₁, dst, t, t', hist', hnext, hinsert, horder, hinv, happends, hadding⟩ :=
      h.insertLsn_takeSeg hordered hrange (fun _ => h.tag_ne_of_existsPage (hpage.trans hhead))
        (absurd hhead)
    rw [if_pos hhead, bind_some, hnext]
    simp only [hinsert, horder, bind_some]
    exact ⟨_, hist', rfl, hinv, happends, hadding⟩
  · have hhere : (s.memTable s.activeTable).state = .active ∧
        (s.memTable s.activeTable).data.samePrefix e.lsn := by
      by_contra hother
      rw [if_neg hother] at hpage
      exact hhead hpage.symm
    rw [if_pos hhere] at hpage
    obtain ⟨hstate, hsame⟩ := hhere
    obtain ⟨init, run, rfl⟩ := h.exists_run hstate
    have hactive := (h.active (by simp)).1
    rw [length_append] at hactive
    obtain ⟨heads, hlayout⟩ := (h.toCore.activeStores hactive hstate).layout
    have hmem : (head, e.tag) ∈ heads := by
      rcases hlayout.existsPage e.tag with hmem | ⟨hend, -⟩
      · exact hpage ▸ hmem
      · exact absurd (hpage.symm.trans hend) hhead
    obtain ⟨full, hfull⟩ := hlayout.exists_memSegFull hmem
    rw [if_neg hhead, hfull]
    cases full with
    | false =>
      obtain ⟨t, idx, item, t', happend, hitem, horder, hinv⟩ :=
        h.insertLsn_append hordered hrange hsame hlayout hmem hfull
      simp only [Bool.false_eq_true, if_false, happend, hitem, horder, bind_some,
        map_some]
      exact ⟨_, _, rfl, hinv, .last init run, rfl⟩
    | true =>
      obtain ⟨s₁, dst, t, t', hist', hnext, hinsert, horder, hinv, happends, hadding⟩ :=
        h.insertLsn_takeSeg hordered hrange (fun heq => absurd heq hhead)
          (fun _ => ⟨hsame, init, run, heads, rfl, hlayout, hmem, hfull⟩)
      simp only [hnext, hinsert, horder, bind_some]
      exact ⟨_, hist', rfl, hinv, happends, hadding⟩

/-! ## Adding an LSN -/

omit h in
/-- The scan back from the end of a saved table finds an entry, when none of the table is beyond
it. -/
theorem Stores.existsInTable {t : Table} {free tid : Nat} {es : List Entry}
    (h : Stores tagHash t free tid es) (hordered : Ordered es) (hle : ∀ e' ∈ es, e'.lsn ≤ e.lsn)
    {n : Nat} (hn : n ≤ es.length) :
    Snapshot.existsInTable t e n = some (decide (e ∈ es.take n)) := by
  induction n with
  | zero => simp [Snapshot.existsInTable]
  | succ n ih =>
    obtain ⟨prev, hget⟩ := h.getOrderLsn (List.getElem?_eq_getElem hn)
    rw [Snapshot.existsInTable, hget, bind_some, take_succ_eq_append_getElem hn]
    simp only
    generalize hlast : es[n] = last
    have hmem : last ∈ es := hlast ▸ getElem_mem hn
    by_cases hlsn : last.lsn = e.lsn
    · rw [if_neg (not_not.mpr hlsn)]
      by_cases htag : e.tag = last.tag
      · obtain rfl : e = last := by
          cases e
          cases last
          simp_all
        simp
      · rw [if_neg htag, ih (Nat.le_of_succ_le hn)]
        have hne : e ≠ last := fun heq => htag (congrArg _ heq)
        simp [hne]
    · -- The entries before this one are not beyond it either.
      rw [if_pos hlsn]
      have hlt : last.lsn < e.lsn := lt_of_le_of_ne (hle last hmem) hlsn
      have hbefore : e ∉ es.take n := by
        intro he
        have hsplit : es = es.take n ++ es.drop n := (take_append_drop n es).symm
        rw [hsplit] at hordered
        have hdrop : last ∈ es.drop n := by
          rw [drop_eq_getElem_cons hn, hlast]
          exact mem_cons_self
        exact Nat.not_lt.mpr ((pairwise_append.mp hordered).2.2 e he last hdrop).1 hlt
      have hne : e ≠ last := fun heq => hlsn (heq ▸ rfl)
      simp [hbefore, hne]

omit h in
theorem Snapshot.prevId_lt {s : Snapshot} (hsize : 3 ≤ s.memTblSize) {mid : Nat}
    (hmid : mid < s.memTblSize) : s.prevId mid < s.memTblSize := by
  rw [Snapshot.prevId]
  split <;> omega

theorem Inv.activeTable_lt :
    s.activeTable < s.memTblSize := by
  by_cases hist = []
  · next hnil =>
    rw [(h.first hnil).1]
    exact lt_of_lt_of_le (by decide) h.size
  · next hne =>
    rw [(h.active hne).1]
    exact slotOf_lt h.size _

/-- `log_index_exists_in_saved_table` does not find an entry that belongs behind the log. -/
theorem Inv.existsInSavedTable
    (hordered : Ordered (hist.flatten ++ [e])) : s.existsInSavedTable e = some false := by
  simp only [Snapshot.existsInSavedTable]
  split
  · rfl
  · next hstate =>
    have hc := (h.slots _ (Snapshot.prevId_lt h.size h.activeTable_lt)).cached (not_not.mp hstate)
    obtain ⟨free, hstores⟩ := hc.stores
    have hbefore : ∀ tid, ∀ e' ∈ runAt hist tid,
        e'.lsn ≤ e.lsn ∧ (e'.tag = e.tag → e'.lsn < e.lsn) := fun tid e' he' =>
      (pairwise_append.mp hordered).2.2 e' (mem_flatten_of_mem_runAt he') e
        mem_cons_self
    rw [hstores.lastOrder, hstores.existsInTable (h.ordered_runAt _)
      (fun e' he' => (hbefore _ e' he').1) le_rfl, take_length]
    exact congrArg some (decide_eq_false fun he => lt_irrefl _ ((hbefore _ e he).2 rfl))

/-- `polar_logindex_add_lsn` for an entry that belongs behind the log. -/
theorem Inv.addLsn
    (hordered : Ordered (hist.flatten ++ [e])) (hrange : invalidLsn < e.lsn ∧ e.lsn < uint64Max)
    (hstart : start ≤ e.lsn) :
    ∃ s' hist', s.addLsn tagHash ⟨e, invalidLsn⟩ = some s' ∧ Inv tagHash start bound s' hist' ∧
      Appends e hist hist' := by
  have hmax : s.metaData.maxLsn ≤ e.lsn := by
    rw [h.metaOk.maxLsn]
    refine lastLsn_le_of_forall fun e' he' => ?_
    have he'' : e' ∈ hist.flatten :=
      (List.take_prefix _ hist).flatten.mem he'
    exact ((pairwise_append.mp hordered).2.2 e' he'' e mem_cons_self).1
  have hskip : ¬ (e.lsn < s.metaData.startLsn ∨ e.lsn < s.metaData.maxLsn) := by
    rw [h.metaOk.startLsn]
    split <;> omega
  rw [Snapshot.addLsn, if_pos hrange.1]
  by_cases hadding : s.adding
  · obtain ⟨s', hist', hs', hinv, happends, -⟩ := h.insertLsn hordered hrange
    exact ⟨s', hist', by rw [if_pos hadding, hs'], hinv, happends⟩
  · have h' : Inv tagHash start bound { s with adding := true } hist := { h with }
    obtain ⟨s', hist', hs', hinv, happends, -⟩ := h'.insertLsn hordered hrange
    refine ⟨s', hist', ?_, hinv, happends⟩
    have hexists : (if s.metaData.maxLsn = e.lsn then s.existsInSavedTable e else some false) =
        some false := by
      split
      · exact h.existsInSavedTable hordered
      · rfl
    rw [if_neg hadding, if_neg hskip, hexists]
    exact hs'

end Insert

end Polar.Logindex
