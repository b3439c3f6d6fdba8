import Mathlib.Data.List.Pairwise
import Polar.Logindex.History
import Polar.Logindex.PageScan

/-!
# Draining a page iterator

The tables are scanned from the newest to the oldest. After table `tid + 1` the stacks hold the LSNs
in range of the tables above `tid`; a scan that stops early leaves only LSNs below the range.
-/

namespace Polar.Logindex

open List
open Option (map_eq_some_iff bind_some map_some)

/-! ## The LSNs of a page, table by table -/

/-- The LSNs of a page in the tables up to `tid`. -/
def lsnsUpTo (hist : List (List Entry)) (tid : Nat) (tag : BufferTag) : List Nat :=
  lsnsFor (hist.take tid).flatten tag

/-- The LSNs of a page in the tables above `tid`. -/
def lsnsAbove (hist : List (List Entry)) (tid : Nat) (tag : BufferTag) : List Nat :=
  lsnsFor (hist.drop tid).flatten tag

section Lsns

variable (hist : List (List Entry)) (tid : Nat) (tag : BufferTag)

theorem lsnsUpTo_succ :
    lsnsUpTo hist (tid + 1) tag = lsnsUpTo hist tid tag ++ lsnsFor (runAt hist (tid + 1)) tag := by
  rw [lsnsUpTo, flatten_take_succ, lsnsFor_append, lsnsUpTo]

theorem lsnsAbove_eq :
    lsnsAbove hist tid tag = lsnsFor (runAt hist (tid + 1)) tag ++ lsnsAbove hist (tid + 1) tag := by
  rw [lsnsAbove, flatten_drop, lsnsFor_append, lsnsAbove]

theorem lsnsUpTo_append_lsnsAbove :
    lsnsUpTo hist tid tag ++ lsnsAbove hist tid tag = lsnsFor hist.flatten tag := by
  rw [lsnsUpTo, lsnsAbove, ← lsnsFor_append, ← flatten_append, take_append_drop]

variable {hist tid tag}

theorem lsnsUpTo_lt (hordered : Ordered hist.flatten) {l l' : Nat}
    (hl : l ∈ lsnsUpTo hist tid tag) (hl' : l' ∈ lsnsFor (runAt hist (tid + 1)) tag) : l < l' := by
  have hsorted : (lsnsUpTo hist (tid + 1) tag).Pairwise (· < ·) :=
    Ordered.lsnsFor (hordered.sublist (List.take_prefix _ _).flatten.sublist) tag
  rw [lsnsUpTo_succ] at hsorted
  exact (pairwise_append.mp hsorted).2.2 l hl l' hl'

end Lsns

/-! ## The tables of the ring -/

section Ring

variable {tagHash : BufferTag → Nat} {start bound : Nat} {s : Snapshot} {hist : List (List Entry)}

/-- A slot that is not free holds the run of its table. -/
theorem SlotOk.stores {memTblSize saved mid : Nat} {m : MemTable}
    (h : SlotOk tagHash memTblSize saved hist mid m) (hstate : m.state ≠ .free) :
    ∃ free, Stores tagHash m.data free m.data.idxTableId (runAt hist m.data.idxTableId) := by
  cases hm : m.state with
  | free => exact absurd hm hstate
  | active => exact ⟨_, (h.of_active hm).2.stores⟩
  | inactive => exact ⟨_, (h.of_inactive hm).2.stores⟩
  | flushed => exact (h.cached hm).stores

/-- Only the active table may be empty. -/
theorem Inv.runAt_ne_nil (h : Inv tagHash start bound s hist) {mid : Nat}
    (hmid : mid < s.memTblSize) (hfree : (s.memTable mid).state ≠ .free)
    (hactive : (s.memTable mid).state ≠ .active) :
    runAt hist (s.memTable mid).data.idxTableId ≠ [] := by
  have hslot := h.slots mid hmid
  cases hm : (s.memTable mid).state with
  | free => exact absurd hm hfree
  | active => exact absurd hm hactive
  | inactive => exact (hslot.of_inactive hm).1
  | flushed =>
    have hc := hslot.cached hm
    refine h.filled _ hc.pos (lt_of_le_of_lt hc.le_saved (h.saved_lt ?_))
    rintro rfl
    exact Nat.not_lt.mpr (le_trans hc.le_saved h.saved_le) hc.pos

theorem prevId_slotOf (hsize : 3 ≤ s.memTblSize) {tid : Nat} (hpos : 0 < tid) :
    s.prevId (slotOf s.memTblSize (tid + 1)) = slotOf s.memTblSize tid := by
  rw [← nextId_slotOf hsize hpos, Snapshot.prevId, Snapshot.nextId]
  have hlt := slotOf_lt hsize tid
  split
  · next hlast => rw [if_pos rfl, hlast]
  · rw [if_neg (Nat.succ_ne_zero _), Nat.add_sub_cancel]

end Ring

/-! ## The scan -/

namespace PageIter

/-- The iterators ask for the same LSNs. -/
structure SameQuery (iter iter' : PageIter) : Prop where
  tag : iter'.tag = iter.tag
  key : iter'.key = iter.key
  minLsn : iter'.minLsn = iter.minLsn
  maxLsn : iter'.maxLsn = iter.maxLsn

theorem SameQuery.trans {iter iter' iter'' : PageIter} (h : SameQuery iter iter')
    (h' : SameQuery iter' iter'') : SameQuery iter iter'' :=
  ⟨h'.tag.trans h.tag, h'.key.trans h.key, h'.minLsn.trans h.minLsn, h'.maxLsn.trans h.maxLsn⟩

/-- The LSNs of the iterator's range. -/
def InRange (iter : PageIter) (lsn : Nat) : Prop := iter.minLsn ≤ lsn ∧ lsn ≤ iter.maxLsn

instance (iter : PageIter) (lsn : Nat) : Decidable (iter.InRange lsn) :=
  inferInstanceAs (Decidable (_ ∧ _))

/-- The tables above `tid` have been scanned. -/
structure Scanned (hist : List (List Entry)) (tid : Nat) (iter : PageIter) : Prop where
  iterPrevLsn : iter.iterPrevLsn = invalidLsn
  full : ∀ stack ∈ iter.lsnStack, stack.Full ∧ stack.prevPageLsn = invalidLsn
  rest : iter.rest = (lsnsAbove hist tid iter.tag).filter (iter.InRange ·)
  upper : ∀ l ∈ lsnsUpTo hist tid iter.tag, (l ≤ iter.iterMaxLsn ↔ l ≤ iter.maxLsn)
  state : iter.state = .forward ∨
    (iter.state = .finished ∧ ∀ l ∈ lsnsUpTo hist tid iter.tag, l < iter.minLsn)

namespace Scanned

variable {hist : List (List Entry)} {tid : Nat} {iter : PageIter}

/-- A table without LSNs in range may be left out. -/
theorem skip (h : Scanned hist (tid + 1) iter)
    (hnone : ∀ l ∈ lsnsFor (runAt hist (tid + 1)) iter.tag, ¬ iter.InRange l) :
    Scanned hist tid iter := by
  have hsub : ∀ l ∈ lsnsUpTo hist tid iter.tag, l ∈ lsnsUpTo hist (tid + 1) iter.tag := by
    intro l hl
    rw [lsnsUpTo_succ]
    exact mem_append_left _ hl
  refine { h with rest := ?_, upper := ?_, state := ?_ }
  · have hempty : (lsnsFor (runAt hist (tid + 1)) iter.tag).filter (iter.InRange ·) = [] := by
      rw [filter_eq_nil_iff]
      exact fun l hl hrange => hnone l hl (of_decide_eq_true hrange)
    rw [lsnsAbove_eq, filter_append, hempty]
    exact h.rest
  · exact fun l hl => h.upper l (hsub l hl)
  · exact h.state.imp id fun hfinished => ⟨hfinished.1, fun l hl => hfinished.2 l (hsub l hl)⟩

/-- A scan may stop once only smaller LSNs are left. -/
theorem finish (h : Scanned hist tid iter)
    (hlow : ∀ l ∈ lsnsUpTo hist tid iter.tag, l < iter.minLsn) :
    Scanned hist tid { iter with state := .finished } :=
  { h with state := .inr ⟨rfl, hlow⟩ }

/-- What the stacks hold once only smaller LSNs are left. -/
theorem rest_eq (h : Scanned hist tid iter)
    (hlow : ∀ l ∈ lsnsUpTo hist tid iter.tag, l < iter.minLsn) :
    iter.rest = (lsnsFor hist.flatten iter.tag).filter (iter.InRange ·) := by
  have hempty : (lsnsUpTo hist tid iter.tag).filter (iter.InRange ·) = [] := by
    rw [filter_eq_nil_iff]
    exact fun l hl hrange => Nat.not_lt.mpr (of_decide_eq_true hrange).1 (hlow l hl)
  rw [h.rest, ← lsnsUpTo_append_lsnsAbove hist tid, filter_append, hempty, nil_append]

/-- The LSNs in range of an item are pushed. -/
theorem iterateTableData (h : Scanned hist (tid + 1) iter) (hfwd : iter.state = .forward)
    {t : Table} {item : ItemHead} {chunks : List Chunk}
    (hfound : Stores.Found t item chunks (lsnsFor (runAt hist (tid + 1)) iter.tag))
    (hordered : Ordered hist.flatten) (maxLsn : Nat)
    (hmin : ∃ l ∈ lsnsFor (runAt hist (tid + 1)) iter.tag, l ≤ iter.maxLsn)
    (hmax : ∀ l ∈ lsnsFor (runAt hist (tid + 1)) iter.tag, l ≤ maxLsn) :
    ∃ iter', iter.iterateTableData t item = some iter' ∧
      Scanned hist tid { iter' with iterMaxLsn := maxLsn + 1 } ∧ SameQuery iter iter' := by
  obtain ⟨least, hleast, hleast_le⟩ := hmin
  have hsorted : ((suffixes item chunks).map t.combineLsn).Pairwise (· < ·) := by
    rw [hfound.lsns]
    exact Ordered.lsnsFor (pairwise_of_runAt hordered (tid + 1)) iter.tag
  have hfull : TblStack.Full ⟨item.prevPageLsn, []⟩ := fun _ hitem => absurd hitem not_mem_nil
  obtain ⟨iter', stack, hsegs, hfull', hpage, hrest, hsettled⟩ :=
    iterateSegs_spec hfound.chain hfull hfwd hsorted hfound.short
  rw [hfound.lsns] at hrest hsettled
  have hhead : item.suffixLsn ≠ [] := hfound.chain.suffixLsn_ne_nil
  have htakes : (lsnsFor (runAt hist (tid + 1)) iter.tag).filter (iter.Takes ·) =
      (lsnsFor (runAt hist (tid + 1)) iter.tag).filter (iter.InRange ·) := by
    refine filter_congr fun l hl => decide_eq_decide.mpr (and_congr_right fun _ => ?_)
    refine h.upper l ?_
    rw [lsnsUpTo_succ]
    exact mem_append_right _ hl
  have hstacks : ∀ stack' ∈ stack :: iter.lsnStack,
      stack'.Full ∧ stack'.prevPageLsn = invalidLsn := by
    exact forall_mem_cons.mpr ⟨⟨hfull', hpage.trans hfound.prevPageLsn⟩, h.full⟩
  have hrest' : (stack :: iter.lsnStack).flatMap TblStack.rest =
      (lsnsAbove hist tid iter.tag).filter (iter.InRange ·) := by
    have hold : iter.lsnStack.flatMap TblStack.rest = _ := h.rest
    rw [flatMap_cons, hrest, hold, htakes, lsnsAbove_eq hist tid]
    simp [TblStack.rest]
  have hupper : ∀ l ∈ lsnsUpTo hist tid iter.tag, (l ≤ maxLsn + 1 ↔ l ≤ iter.maxLsn) := by
    intro l hl
    have hlt := lsnsUpTo_lt hordered hl hleast
    have hle := hmax least hleast
    constructor <;> omega
  rw [PageIter.iterateTableData, if_neg hhead, h.iterPrevLsn, beq_self_eq_true, hfound.tailSeg,
    hsegs, map_some]
  rcases hsettled with rfl | ⟨rfl, l, hl, hle⟩
  · exact ⟨_, rfl, ⟨h.iterPrevLsn, hstacks, hrest', hupper, .inl hfwd⟩, ⟨rfl, rfl, rfl, rfl⟩⟩
  · refine ⟨_, rfl, ⟨h.iterPrevLsn, hstacks, hrest', hupper, .inr ⟨rfl, ?_⟩⟩, ⟨rfl, rfl, rfl, rfl⟩⟩
    exact fun l' hl' => lt_of_lt_of_le (lsnsUpTo_lt hordered hl' hl) hle

theorem linkPrev (h : Scanned hist tid iter) : iter.linkPrev = iter := by
  rw [PageIter.linkPrev]
  split
  · rfl
  · next prev tblStacks hstacks =>
    exact if_neg (not_not.mpr (h.full prev (hstacks ▸ mem_cons_self)).2)

/-- The LSNs of one table are pushed. -/
theorem pushTblLsn {tagHash : BufferTag → Nat} (h : Scanned hist (tid + 1) iter)
    (hfwd : iter.state = .forward) (hkey : iter.key = hashPage tagHash iter.tag) {t : Table}
    {free : Nat} (hstores : Stores tagHash t free (tid + 1) (runAt hist (tid + 1)))
    (hordered : Ordered hist.flatten) (hrange : ∀ e ∈ hist.flatten, e.lsn < uint64Max) :
    ∃ iter', iter.pushTblLsn t = some iter' ∧ Scanned hist tid iter' ∧ SameQuery iter iter' := by
  have hsame : SameQuery iter iter := ⟨rfl, rfl, rfl, rfl⟩
  have hsorted := Ordered.lsnsFor (pairwise_of_runAt hordered (tid + 1)) iter.tag
  have hfind := hstores.tblFind iter.tag
  rw [← hkey] at hfind
  simp only [PageIter.pushTblLsn, h.linkPrev]
  rcases hfind with ⟨hnone, hempty⟩ | ⟨item, chunks, hfind, hfound⟩
  · rw [hnone]
    exact ⟨iter, rfl, h.skip (by rw [hempty]; simp), hsame⟩
  · rw [hfind]
    have hne := hfound.ne_nil
    have hmin := hfound.itemMinLsn
    have hmax := hfound.itemMaxLsn
    rw [List.head?_eq_some_head hne] at hmin
    rw [List.getLast?_eq_some_getLast hne] at hmax
    have hle : (lsnsFor (runAt hist (tid + 1)) iter.tag).Pairwise (· ≤ ·) :=
      hsorted.imp le_of_lt
    simp only [hmin, hmax, bind_some]
    split
    · next hgt =>
      refine ⟨iter, rfl, h.skip fun l hl hin => ?_, hsame⟩
      exact Nat.not_lt.mpr hin.2 (lt_of_lt_of_le hgt (hle.rel_head hl))
    · next hmin_le =>
      split
      · next hlt =>
        have hbelow : ∀ l ∈ lsnsFor (runAt hist (tid + 1)) iter.tag, l < iter.minLsn :=
          fun l hl => lt_of_le_of_lt (hle.rel_getLast hl) hlt
        have hskip := h.skip fun l hl hin => Nat.not_lt.mpr hin.1 (hbelow l hl)
        refine ⟨_, rfl, hskip.finish fun l hl => ?_, ⟨rfl, rfl, rfl, rfl⟩⟩
        have hmem := head_mem hne
        exact lt_trans (lsnsUpTo_lt hordered hl hmem) (hbelow _ hmem)
      · obtain ⟨iter', hdata, hscanned, hquery⟩ := h.iterateTableData hfwd hfound hordered
          ((lsnsFor (runAt hist (tid + 1)) iter.tag).getLast hne)
          ⟨_, head_mem hne, Nat.not_lt.mp hmin_le⟩ (fun l hl => hle.rel_getLast hl)
        have hlast : (lsnsFor (runAt hist (tid + 1)) iter.tag).getLast hne + 1 < 2 ^ 64 :=
          Nat.succ_lt_succ
            (hrange _ (mem_flatten_of_mem_runAt (mem_lsnsFor.mp (getLast_mem hne))))
        rw [hdata, Nat.mod_eq_of_lt hlast]
        exact ⟨_, rfl, hscanned, { hquery with }⟩

variable {tagHash : BufferTag → Nat} {start bound : Nat} {s : Snapshot}

/-- A table below the range ends the scan. -/
theorem finish_table (h : Scanned hist (tid + 1) iter) (hordered : Ordered hist.flatten)
    (hne : runAt hist (tid + 1) ≠ []) (hlt : lastLsn (runAt hist (tid + 1)) < iter.minLsn) :
    Scanned hist tid { iter with state := .finished } := by
  have hlast : ∀ e ∈ runAt hist (tid + 1), e.lsn < iter.minLsn := fun e he =>
    lt_of_le_of_lt (Ordered.le_lastLsn (pairwise_of_runAt hordered _) he) hlt
  refine (h.skip fun l hl hin => ?_).finish fun l hl => ?_
  · exact Nat.not_lt.mpr hin.1 (hlast _ (mem_lsnsFor.mp hl))
  · obtain ⟨e, he⟩ := exists_mem_of_ne_nil _ hne
    rw [← take_append_drop tid hist, flatten_append, flatten_drop] at hordered
    have hle := (pairwise_append.mp hordered).2.2 _ (mem_lsnsFor.mp hl) e
      (mem_append_left _ he)
    exact lt_of_le_of_lt hle.1 (hlast e he)

theorem pushMemTbl (h : Scanned hist (tid + 1) iter) (hinv : Inv tagHash start bound s hist)
    (hfwd : iter.state = .forward) (hkey : iter.key = hashPage tagHash iter.tag) {mid : Nat}
    (hmid : mid < s.memTblSize) (htid : (s.memTable mid).data.idxTableId = tid + 1)
    (hstate : (s.memTable mid).state ≠ .free) :
    ∃ iter', (if (iter.tableInRange (s.memTable mid)).2 then
          (iter.tableInRange (s.memTable mid)).1.pushTblLsn (s.memTable mid).data
        else some (iter.tableInRange (s.memTable mid)).1) = some iter' ∧
      Scanned hist tid iter' ∧ SameQuery iter iter' := by
  obtain ⟨free, hstores⟩ := (hinv.slots mid hmid).stores hstate
  rw [htid] at hstores
  have hpush := h.pushTblLsn hfwd hkey hstores hinv.ordered fun e he => (hinv.range e he).2
  rw [tableInRange]
  split
  · exact hpush
  · next hactive =>
    have hne : runAt hist (tid + 1) ≠ [] := htid ▸ hinv.runAt_ne_nil hmid hstate hactive
    rw [hstores.minLsn, hstores.maxLsn]
    split
    · next hgt =>
      refine ⟨iter, rfl, h.skip fun l hl hin => ?_, ⟨rfl, rfl, rfl, rfl⟩⟩
      have hle := Ordered.firstLsn_le (hinv.ordered_runAt (tid + 1)) (mem_lsnsFor.mp hl)
      exact Nat.not_lt.mpr hin.2 (lt_of_lt_of_le hgt hle)
    · split
      · next hlt => exact ⟨_, rfl, h.finish_table hinv.ordered hne hlt, ⟨rfl, rfl, rfl, rfl⟩⟩
      · exact hpush

/-- `log_index_push_mem_tbl_lsn` scans the tables that are still in the ring. -/
theorem pushMemTblLoop (h : Scanned hist tid iter) (hinv : Inv tagHash start bound s hist)
    (hfwd : iter.state = .forward) (hkey : iter.key = hashPage tagHash iter.tag)
    (htid : tid ≤ hist.length) (mid : Nat) (hmid : 0 < tid → mid = slotOf s.memTblSize tid) :
    ∃ iter' tid', PageIter.pushMemTblLoop s tid mid iter = some (iter', tid') ∧
      Scanned hist tid' iter' ∧ SameQuery iter iter' ∧
      (iter'.state = .forward → tid' ≤ s.metaData.maxIdxTableId) := by
  induction tid generalizing iter mid with
  | zero => exact ⟨iter, 0, rfl, h, ⟨rfl, rfl, rfl, rfl⟩, fun _ => Nat.zero_le _⟩
  | succ tid ih =>
    obtain rfl := hmid (Nat.succ_pos _)
    have hslot := slotOf_lt hinv.size (tid + 1)
    rw [PageIter.pushMemTblLoop]
    split
    · next hhere =>
      obtain ⟨iter', hiter', hscanned, hquery⟩ :=
        h.pushMemTbl hinv hfwd hkey hslot hhere.1 hhere.2
      have hkey' : iter'.key = hashPage tagHash iter'.tag := by
        rw [hquery.key, hquery.tag, hkey]
      simp only [hiter', bind_some]
      split
      · next hfwd' =>
        obtain ⟨iter'', tid', hloop, hscanned', hquery', hend⟩ :=
          ih hscanned hfwd' hkey' (Nat.le_of_succ_le htid) _ fun hpos =>
            prevId_slotOf hinv.size hpos
        exact ⟨iter'', tid', hloop, hscanned', hquery.trans hquery', hend⟩
      · next hdone =>
        exact ⟨iter', tid, rfl, hscanned, hquery, fun hfwd' => absurd hfwd' hdone⟩
    · next hgone =>
      refine ⟨iter, tid + 1, rfl, h, ⟨rfl, rfl, rfl, rfl⟩, fun _ => ?_⟩
      by_contra hsaved
      obtain ⟨hid, hlive⟩ := hinv.live (tid + 1) (by omega) htid
      exact hgone ⟨hid, by rcases hlive with hlive | hlive <;> simp [hlive]⟩

/-! ## Saved tables -/

variable {lacks : Bloom → BufferTag → Bool}

/-- A saved table is scanned, from its slot or from storage, or is known to have no LSN in
range. -/
theorem pushFileTbl (h : Scanned hist (tid + 1) iter) (hinv : Inv tagHash start bound s hist)
    (hfwd : iter.state = .forward) (hkey : iter.key = hashPage tagHash iter.tag)
    (hlacks : ∀ bloom tag, lacks bloom tag → tag ∉ bloom.tags)
    (hmin : s.metaData.minSegmentInfo.minIdxTableId ≤ tid + 1)
    (hle : tid + 1 ≤ s.metaData.maxIdxTableId) :
    ∃ s' iter', PageIter.pushFileTbl lacks s iter (tid + 1) = some (s', iter') ∧
      Inv tagHash start bound s' hist ∧ s'.metaData = s.metaData ∧ Scanned hist tid iter' ∧
      SameQuery iter iter' := by
  have hrange : ∀ e ∈ hist.flatten, e.lsn < uint64Max := fun e he => (hinv.range e he).2
  rw [PageIter.pushFileTbl]
  split
  · next hhere =>
    obtain ⟨free, hstores⟩ := (hinv.slots _ (slotOf_lt hinv.size (tid + 1))).stores
      (by rw [hhere.1]; exact TblState.noConfusion)
    rw [hhere.2] at hstores
    obtain ⟨iter', hiter', hscanned, hquery⟩ :=
      h.pushTblLsn hfwd hkey hstores hinv.ordered hrange
    exact ⟨s, iter', by rw [hiter', map_some], hinv, rfl, hscanned, hquery⟩
  · obtain ⟨bloom, hbloom, hof⟩ := (hinv.disk (tid + 1) (Nat.succ_pos _) hmin hle).bloom
    rw [checkBloomNotExists, hbloom, bind_some, if_neg (not_not.mpr hof.idxTableId.symm)]
    split
    · next hlt =>
      have hne : runAt hist (tid + 1) ≠ [] := by
        refine hinv.filled _ (Nat.succ_pos _) (lt_of_le_of_lt hle (hinv.saved_lt ?_))
        rintro rfl
        exact Nat.not_succ_le_zero _ (le_trans hle hinv.saved_le)
      rw [hof.maxLsn] at hlt
      exact ⟨s, _, rfl, hinv, rfl, h.finish_table hinv.ordered hne hlt, ⟨rfl, rfl, rfl, rfl⟩⟩
    · cases hmissing : lacks bloom iter.tag with
      | true =>
        refine ⟨s, iter, rfl, hinv, rfl, h.skip fun l hl _ => ?_, ⟨rfl, rfl, rfl, rfl⟩⟩
        exact hlacks bloom iter.tag hmissing (hof.tags _ (mem_lsnsFor.mp hl))
      | false =>
        obtain ⟨s', t, free, m, hread, hstores, -, hinv', hmeta, -⟩ :=
          hinv.readTable (Nat.succ_pos _) hmin hle
        obtain ⟨iter', hiter', hscanned, hquery⟩ :=
          h.pushTblLsn hfwd hkey hstores hinv.ordered hrange
        simp only [hfwd, hread, hiter', and_self, bind_some]
        exact ⟨s', iter', rfl, hinv', hmeta, hscanned, hquery⟩

/-- The LSNs of the tables that have been cut off are below the range. -/
theorem lsnsUpTo_lt_of_cut (hinv : Inv tagHash start bound s hist) (hbound : bound ≤ iter.minLsn)
    (hcut : tid < s.metaData.minSegmentInfo.minIdxTableId ∨ tid = 0) :
    ∀ l ∈ lsnsUpTo hist tid iter.tag, l < iter.minLsn := by
  intro l hl
  obtain ⟨tid', hpos, hle, he⟩ := exists_mem_runAt (mem_lsnsFor.mp hl)
  have hle' : tid' ≤ tid := le_trans hle (length_take_le _ _)
  rw [runAt_take hle'] at he
  exact lt_of_lt_of_le (hinv.metaOk.cut tid' (by omega) _ he) hbound

/-- `log_index_push_file_tbl_lsn` scans the saved tables. -/
theorem pushFileTblLoop (h : Scanned hist tid iter) (hinv : Inv tagHash start bound s hist)
    (hkey : iter.key = hashPage tagHash iter.tag)
    (hlacks : ∀ bloom tag, lacks bloom tag → tag ∉ bloom.tags)
    (hbound : bound ≤ iter.minLsn) (hle : tid ≤ s.metaData.maxIdxTableId) :
    ∃ s' iter' tid', PageIter.pushFileTblLoop lacks s.metaData.minSegmentInfo.minIdxTableId tid s
        iter = some (s', iter') ∧
      Inv tagHash start bound s' hist ∧ Scanned hist tid' iter' ∧ SameQuery iter iter' ∧
      ∀ l ∈ lsnsUpTo hist tid' iter'.tag, l < iter'.minLsn := by
  induction tid generalizing s iter with
  | zero =>
    exact ⟨s, iter, 0, rfl, hinv, h, ⟨rfl, rfl, rfl, rfl⟩,
      lsnsUpTo_lt_of_cut hinv hbound (.inr rfl)⟩
  | succ tid ih =>
    rw [PageIter.pushFileTblLoop]
    split
    · next hturn =>
      obtain ⟨s', iter', hturn', hinv', hmeta, hscanned, hquery⟩ :=
        h.pushFileTbl hinv hturn.2 hkey hlacks hturn.1 hle
      rw [hturn', ← hmeta]
      obtain ⟨s'', iter'', tid', hloop, hinv'', hscanned', hquery', hlow⟩ :=
        ih hscanned hinv' (by rw [hquery.key, hquery.tag, hkey])
          (by rwa [hquery.minLsn]) (by rw [hmeta]; omega)
      exact ⟨s'', iter'', tid', hloop, hinv'', hscanned', hquery.trans hquery', hlow⟩
    · next hstop =>
      refine ⟨s, iter, tid + 1, rfl, hinv, h, ⟨rfl, rfl, rfl, rfl⟩, ?_⟩
      rcases h.state with hfwd | ⟨-, hlow⟩
      · refine lsnsUpTo_lt_of_cut hinv hbound (.inl ?_)
        exact Nat.lt_of_not_le fun hmin => hstop ⟨hmin, hfwd⟩
      · exact hlow

/-- The stacks of an iterator once only smaller LSNs are left. -/
theorem settled {minLsn maxLsn : Nat} {tag : BufferTag} (h : Scanned hist tid iter)
    (hquery : SameQuery (.start tagHash s tag minLsn maxLsn) iter)
    (hlow : ∀ l ∈ lsnsUpTo hist tid iter.tag, l < iter.minLsn) :
    iter.tag = tag ∧ (∀ stack ∈ iter.lsnStack, stack.Wf) ∧
      iter.rest = (lsnsFor hist.flatten tag).filter fun l => minLsn ≤ l ∧ l ≤ maxLsn := by
  refine ⟨hquery.tag, fun stack hstack => (h.full stack hstack).1.wf, ?_⟩
  rw [h.rest_eq hlow, hquery.tag]
  refine filter_congr fun l _ => decide_eq_decide.mpr ?_
  rw [InRange, hquery.minLsn, hquery.maxLsn]
  rfl

end Scanned

variable {tagHash : BufferTag → Nat} {start bound : Nat} {s : Snapshot}
  {hist : List (List Entry)} {lacks : Bloom → BufferTag → Bool}

/-- `polar_logindex_create_page_iterator` puts the LSNs in range on the stacks. -/
theorem create_spec (hinv : Inv tagHash start bound s hist)
    (hlacks : ∀ bloom tag, lacks bloom tag → tag ∉ bloom.tags) (tag : BufferTag)
    {minLsn maxLsn : Nat} (hbound : bound ≤ minLsn) (hlt : minLsn < maxLsn) :
    ∃ s' iter, create tagHash lacks s tag minLsn maxLsn = some (s', iter) ∧
      Inv tagHash start bound s' hist ∧ iter.tag = tag ∧
      (∀ stack ∈ iter.lsnStack, stack.Wf) ∧
      iter.rest = (lsnsFor hist.flatten tag).filter fun l => minLsn ≤ l ∧ l ≤ maxLsn := by
  have hscanned₀ : Scanned hist s.maxIdxTableId (.start tagHash s tag minLsn maxLsn) := by
    refine ⟨rfl, fun _ hstack => absurd hstack not_mem_nil, ?_, fun _ _ => Iff.rfl, .inl rfl⟩
    rw [lsnsAbove, hinv.length, drop_length]
    rfl
  obtain ⟨iter₁, tid, hmem, hscanned₁, hquery₁, hsaved⟩ := hscanned₀.pushMemTblLoop hinv rfl rfl
    (le_of_eq hinv.length) _ (fun _ => rfl)
  have hkey₁ : iter₁.key = hashPage tagHash iter₁.tag := by
    rw [hquery₁.key, hquery₁.tag]
    rfl
  have hmin₁ : bound ≤ iter₁.minLsn := by
    rwa [hquery₁.minLsn]
  have hmem' : pushMemTblLsn s (.start tagHash s tag minLsn maxLsn) =
      some (if tid = invalidTableId then { iter₁ with state := .finished } else iter₁, tid) :=
    congrArg (Option.map _) hmem
  rw [create, if_pos hlt, hmem', bind_some]
  by_cases hzero : tid = invalidTableId
  · subst hzero
    have hlow : ∀ l ∈ lsnsUpTo hist invalidTableId iter₁.tag, l < iter₁.minLsn := fun _ hl =>
      absurd hl not_mem_nil
    exact ⟨s, _, rfl, hinv, (hscanned₁.finish hlow).settled
      { hquery₁ with } hlow⟩
  · simp only [if_neg hzero]
    rcases hscanned₁.state with hfwd | ⟨hfinished, hlow⟩
    · have hle := hsaved hfwd
      obtain ⟨s', iter', tid', hloop, hinv', hscanned', hquery', hlow'⟩ :=
        hscanned₁.pushFileTblLoop hinv hkey₁ hlacks hmin₁ hle
      rw [if_pos hfwd, pushFileTblLsn, refreshMeta]
      simp only [if_neg (Nat.not_lt.mpr hle), hloop]
      exact ⟨s', _, rfl, hinv', hscanned'.settled (hquery₁.trans hquery') hlow'⟩
    · rw [hfinished]
      exact ⟨s, iter₁, rfl, hinv, hscanned₁.settled hquery₁ hlow⟩

end PageIter

/-! ## The iterator over a run -/

/-- After any run, draining a page iterator returns exactly the LSNs of the page in the range, in
increasing order, when no table with LSNs of the range has been truncated. -/
theorem pageIterator_returns_range {tagHash : BufferTag → Nat} {lacks : Bloom → BufferTag → Bool}
    (hlacks : ∀ bloom tag, lacks bloom tag → tag ∉ bloom.tags) {memTblSize start : Nat}
    (hsize : 3 ≤ memTblSize) {minLsn maxLsn : Nat} (hlt : minLsn < maxLsn) {st : Logged}
    (hrun : Reaches (Logged.step tagHash) (Logged.Ok start minLsn) (.init memTblSize start) st)
    (tag : BufferTag) :
    ∃ s' iter infos,
      PageIter.create tagHash lacks st.snapshot tag minLsn maxLsn = some (s', iter) ∧
      (∀ calls, infos.length < calls → iter.drain calls = some infos) ∧
      infos.map (·.lsn) = (lsnsFor st.entries tag).filter (fun l => minLsn ≤ l ∧ l ≤ maxLsn) ∧
      (infos.map (·.lsn)).Pairwise (· < ·) ∧ ∀ info ∈ infos, info.tag = tag := by
  obtain ⟨hist, hinv, hlog⟩ := Logged.holds_of_reaches hsize hrun
  have hentries : st.entries = hist.flatten := by rw [Logged.entries, hlog, numbered_map_snd]
  obtain ⟨s', iter, hcreate, -, htag, hwf, hrest⟩ :=
    PageIter.create_spec hinv hlacks tag (le_refl minLsn) hlt
  obtain ⟨infos, hlsns, htags, hdrain⟩ := PageIter.drain_spec hwf
  refine ⟨s', iter, infos, hcreate, hdrain, ?_, ?_, fun info hinfo => (htags info hinfo).trans htag⟩
  · rw [hlsns, hrest, hentries]
  · rw [hlsns, hrest]
    exact (hinv.ordered.lsnsFor tag).filter _

/-- LSNs of a page in a saved table, three of them in two segments, and in the table that
follows. -/
theorem pageIterator_returns_range_two_tables : ∃ st : Logged,
    Reaches (Logged.step fun _ => 0) (Logged.Ok 1 3) (.init 3 1) st ∧
      st.snapshot.metaData.maxIdxTableId = 1 ∧ st.snapshot.maxIdxTableId = 2 ∧
      ∃ s' iter infos,
        PageIter.create (fun _ => 0) (fun bloom tag => tag ∉ bloom.tags) st.snapshot
          ⟨1663, 5, 16384, 0, 7⟩ 3 (2 ^ 33) = some (s', iter) ∧
        iter.drain 5 = some infos ∧ infos.map (·.lsn) = [5, 6, 8, 2 ^ 32 + 5] := by
  let tag : BufferTag := ⟨1663, 5, 16384, 0, 7⟩
  obtain ⟨st, run, hsaved, hmax, hentries⟩ := exists_reaches_tested (Logged.step fun _ => 0)
    (Logged.Ok 1 3) (.init 3 1)
    [.add ⟨tag, 5⟩, .add ⟨tag, 6⟩, .add ⟨{ tag with blockNum := 8 }, 7⟩, .add ⟨tag, 8⟩,
      .add ⟨tag, 2 ^ 32 + 5⟩, .flush false]
    (fun st => st.snapshot.metaData.maxIdxTableId = 1 ∧ st.snapshot.maxIdxTableId = 2 ∧
      (lsnsFor st.entries tag).filter (fun l => 3 ≤ l ∧ l ≤ 2 ^ 33) = [5, 6, 8, 2 ^ 32 + 5])
    (by decide +kernel)
  have hlacks : ∀ (bloom : Bloom) (tag : BufferTag), decide (tag ∉ bloom.tags) = true →
      tag ∉ bloom.tags := fun _ _ => of_decide_eq_true
  obtain ⟨s', iter, infos, hcreate, hdrain, hlsns, -, -⟩ := pageIterator_returns_range hlacks
    (by decide) (show 3 < 2 ^ 33 by decide) run tag
  rw [hentries] at hlsns
  have hlength : infos.length = 4 := by simpa using congrArg List.length hlsns
  exact ⟨st, run, hsaved, hmax, s', iter, infos, hcreate, hdrain 5 (by omega), hlsns⟩

end Polar.Logindex
