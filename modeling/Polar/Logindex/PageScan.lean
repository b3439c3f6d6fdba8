import Polar.Logindex.Contents
import Polar.Logindex.PageIterator

/-!
# What the page iterator takes from a table

The stacks of an iterator hold a list of LSNs, from the next one to return to the last one. Pushing
the items of a table puts those of its LSNs that are in range before that list.
-/

namespace Polar.Logindex

open List Option

/-! ## Stacks -/

/-- The LSNs still to return, in order. -/
def PageLsn.rest (item : PageLsn) : List Nat := (item.lsn.take item.iterPos).reverse

namespace TblStack

/-- The LSNs still to return, in order. -/
def rest (stack : TblStack) : List Nat := stack.items.flatMap PageLsn.rest

/-- No LSN has been popped. -/
def Full (stack : TblStack) : Prop :=
  ∀ item ∈ stack.items, item.iterPos = item.lsn.length ∧ 0 < item.iterPos

/-- Items are removed with their last LSN. -/
def Wf (stack : TblStack) : Prop :=
  ∀ item ∈ stack.items, 0 < item.iterPos ∧ item.iterPos ≤ item.lsn.length

theorem Full.wf {stack : TblStack} (h : stack.Full) : stack.Wf := fun item hitem =>
  ⟨(h item hitem).2, le_of_eq (h item hitem).1⟩

/-- A pushed LSN is the next one to return. -/
theorem push_spec {stack : TblStack} (h : stack.Full) (lsn prevLsn : Nat) :
    (stack.push lsn prevLsn).Full ∧ (stack.push lsn prevLsn).rest = lsn :: stack.rest ∧
      (stack.push lsn prevLsn).prevPageLsn = stack.prevPageLsn := by
  obtain ⟨prevPageLsn, items⟩ := stack
  have hnew : ∀ more : List PageLsn, (∀ item ∈ more, item.iterPos = item.lsn.length ∧
      0 < item.iterPos) → Full ⟨prevPageLsn, ⟨[lsn], 1, prevLsn⟩ :: more⟩ := by
    intro more hmore item hitem
    rcases mem_cons.mp hitem with rfl | hitem
    · exact ⟨rfl, Nat.one_pos⟩
    · exact hmore item hitem
  cases items with
  | nil => exact ⟨hnew [] (by simp), rfl, rfl⟩
  | cons item items =>
    simp only [push]
    split
    · exact ⟨hnew _ h, rfl, rfl⟩
    · refine ⟨?_, ?_, rfl⟩
      · intro item' hitem'
        rcases mem_cons.mp hitem' with rfl | hitem'
        · exact ⟨by simp, Nat.succ_pos _⟩
        · exact h item' (mem_cons_of_mem _ hitem')
      · have hpos := (h item mem_cons_self).1
        have htake : (item.lsn ++ [lsn]).take (item.lsn.length + 1) = item.lsn ++ [lsn] :=
          take_of_length_le (by simp)
        simp [rest, PageLsn.rest, hpos, htake]

theorem popLsn_spec {stack : TblStack} (h : stack.Wf) :
    (stack.popLsn = none ∧ stack.rest = []) ∨
      ∃ lsn prevLsn stack', stack.popLsn = some ((lsn, prevLsn), stack') ∧
        stack.rest = lsn :: stack'.rest ∧ stack'.Wf := by
  obtain ⟨prevPageLsn, items⟩ := stack
  cases items with
  | nil => exact .inl ⟨rfl, rfl⟩
  | cons item items =>
    obtain ⟨hpos, hle⟩ := h item mem_cons_self
    obtain ⟨lsns, iterPos, prev⟩ := item
    obtain ⟨idx, rfl⟩ : ∃ idx, iterPos = idx + 1 := ⟨iterPos - 1, by simp at hpos; omega⟩
    have hidx : idx < lsns.length := hle
    have hrest : PageLsn.rest ⟨lsns, idx + 1, prev⟩ = lsns[idx] :: (lsns.take idx).reverse := by
      rw [PageLsn.rest, take_succ_eq_append_getElem hidx, reverse_append]
      rfl
    have hget : lsns.getD idx invalidLsn = lsns[idx] := by
      rw [getD_eq_getElem?_getD, List.getElem?_eq_getElem hidx, getD_some]
    refine .inr ⟨_, _, _, rfl, ?_, ?_⟩
    · simp only [rest, flatMap_cons, hrest, Nat.add_sub_cancel, hget]
      split
      · next hzero => simp [hzero]
      · rfl
    · intro item' hitem'
      split at hitem'
      · exact h item' (mem_cons_of_mem _ hitem')
      · next hne =>
        rcases mem_cons.mp hitem' with rfl | hitem'
        · exact ⟨Nat.pos_of_ne_zero hne, le_of_lt hidx⟩
        · exact h item' (mem_cons_of_mem _ hitem')

end TblStack

namespace PageIter

/-- The LSNs still to return, in order. -/
def rest (iter : PageIter) : List Nat := iter.lsnStack.flatMap TblStack.rest

theorem popStacks_spec {tblStacks : List TblStack} (h : ∀ stack ∈ tblStacks, stack.Wf) :
    (popStacks tblStacks = none ∧ tblStacks.flatMap TblStack.rest = []) ∨
      ∃ lsn prevLsn tblStacks', popStacks tblStacks = some ((lsn, prevLsn), tblStacks') ∧
        tblStacks.flatMap TblStack.rest = lsn :: tblStacks'.flatMap TblStack.rest ∧
        ∀ stack ∈ tblStacks', stack.Wf := by
  induction tblStacks with
  | nil => exact .inl ⟨rfl, rfl⟩
  | cons stack tblStacks ih =>
    have htail : ∀ stack' ∈ tblStacks, stack'.Wf := fun stack' hstack' =>
      h stack' (mem_cons_of_mem _ hstack')
    rw [popStacks]
    rcases TblStack.popLsn_spec (h stack mem_cons_self) with
      ⟨hnone, hempty⟩ | ⟨lsn, prevLsn, stack', hsome, hrest, hwf⟩
    · rw [hnone, flatMap_cons, hempty]
      exact ih htail
    · rw [hsome, flatMap_cons, hrest]
      refine .inr ⟨lsn, prevLsn, stack' :: tblStacks, rfl, rfl, ?_⟩
      exact forall_mem_cons.mpr ⟨hwf, htail⟩

/-- Enough calls return all that is left. -/
theorem drain_spec {iter : PageIter} (h : ∀ stack ∈ iter.lsnStack, stack.Wf) :
    ∃ infos, infos.map (·.lsn) = iter.rest ∧ (∀ info ∈ infos, info.tag = iter.tag) ∧
      ∀ calls, infos.length < calls → iter.drain calls = some infos := by
  generalize hlsns : iter.rest = lsns
  induction lsns generalizing iter with
  | nil =>
    refine ⟨[], rfl, by simp, fun calls hcalls => ?_⟩
    obtain ⟨calls, rfl⟩ := Nat.exists_eq_add_of_lt hcalls
    rcases popStacks_spec h with ⟨hnone, -⟩ | ⟨lsn, prevLsn, tblStacks', -, hrest, -⟩
    · rw [drain, next, hnone]
    · rw [rest, hrest] at hlsns
      exact absurd hlsns (cons_ne_nil _ _)
  | cons l lsns ih =>
    rcases popStacks_spec h with ⟨-, hempty⟩ | ⟨lsn, prevLsn, tblStacks', hsome, hrest, hwf⟩
    · rw [rest, hempty] at hlsns
      exact absurd hlsns (cons_ne_nil _ _).symm
    · rw [rest, hrest] at hlsns
      obtain ⟨rfl, htail⟩ := List.cons.inj hlsns
      obtain ⟨infos, hinfos, htags, hdrain⟩ := @ih { iter with lsnStack := tblStacks' } hwf htail
      refine ⟨⟨⟨iter.tag, lsn⟩, prevLsn⟩ :: infos, by rw [map_cons, hinfos], ?_, ?_⟩
      · exact forall_mem_cons.mpr ⟨rfl, htags⟩
      · intro calls hcalls
        obtain ⟨calls, rfl⟩ := Nat.exists_eq_add_of_lt hcalls
        have hlt : infos.length < infos.length + 1 + calls := by omega
        rw [drain, next, hsome]
        simp only [length_cons, hdrain _ hlt, map_some]

/-! ## Segments -/

/-- The LSNs the iterator pushes. -/
def Takes (iter : PageIter) (lsn : Nat) : Prop := iter.minLsn ≤ lsn ∧ lsn ≤ iter.iterMaxLsn

instance (iter : PageIter) (lsn : Nat) : Decidable (iter.Takes lsn) :=
  inferInstanceAs (Decidable (_ ∧ _))

/-- The iterator stays as it is, or is finished since one of `lsns` is not above its range. -/
def Settled (iter iter' : PageIter) (lsns : List Nat) : Prop :=
  iter' = iter ∨ (iter' = { iter with state := .finished } ∧ ∃ l ∈ lsns, l ≤ iter.minLsn)

theorem filter_takes_eq_nil {iter : PageIter} {lsns : List Nat}
    (h : ∀ l ∈ lsns, l < iter.minLsn) : lsns.filter (iter.Takes ·) = [] := by
  rw [filter_eq_nil_iff]
  intro l hl htakes
  exact Nat.not_lt.mpr (of_decide_eq_true htakes).1 (h l hl)

variable {t : Table} {iter : PageIter} {stack : TblStack}

/-- A segment is scanned down to the first LSN that is not above the range. -/
theorem pushLsnLoop_spec (iter : PageIter) {segId : Nat} {suffixLsn : List Nat} (hfull : stack.Full)
    (hsorted : (suffixLsn.map t.combineLsn).Pairwise (· < ·))
    (hprev : ∀ idx < suffixLsn.length, ∃ prevLsn, t.getSegPrevLsn segId idx = some prevLsn)
    {n : Nat} (hn : n ≤ suffixLsn.length) :
    ∃ iter' stack', pushLsnLoop t segId suffixLsn n iter stack true = some (iter', stack', true) ∧
      stack'.Full ∧ stack'.prevPageLsn = stack.prevPageLsn ∧
      stack'.rest =
        ((suffixLsn.take n).map t.combineLsn).filter (iter.Takes ·) ++ stack.rest ∧
      iter.Settled iter' (suffixLsn.map t.combineLsn) := by
  induction n generalizing stack with
  | zero => exact ⟨iter, stack, rfl, hfull, rfl, by simp, .inl rfl⟩
  | succ n ih =>
    have hget : suffixLsn[n]? = some suffixLsn[n] := List.getElem?_eq_getElem hn
    have hmem : t.combineLsn suffixLsn[n] ∈ suffixLsn.map t.combineLsn :=
      mem_map_of_mem (getElem_mem hn)
    have hbelow : ∀ l ∈ (suffixLsn.take n).map t.combineLsn, l < t.combineLsn suffixLsn[n] := by
      rw [← take_append_drop n suffixLsn, map_append,
        drop_eq_getElem_cons hn] at hsorted
      exact fun l hl => (pairwise_append.mp hsorted).2.2 l hl _ mem_cons_self
    simp only [pushLsnLoop, hget, bind_some, Bool.true_or, if_true]
    rw [take_succ_eq_append_getElem hn, map_append, filter_append, map_cons,
      map_nil]
    generalize t.combineLsn suffixLsn[n] = l at hmem hbelow
    by_cases htakes : iter.minLsn ≤ l ∧ l ≤ iter.iterMaxLsn
    · obtain ⟨prevLsn, hprevLsn⟩ := hprev n hn
      obtain ⟨hfull', hrest', hpage'⟩ := TblStack.push_spec hfull l prevLsn
      have hone : [l].filter (iter.Takes ·) = [l] := by simp [show iter.Takes l from htakes]
      rw [if_pos htakes, hprevLsn, hone]
      split
      · next hmin =>
        refine ⟨_, _, rfl, hfull', hpage', ?_, .inr ⟨rfl, l, hmem, le_of_eq hmin⟩⟩
        rw [filter_takes_eq_nil (fun l' hl' => hmin ▸ hbelow l' hl'), hrest']
        rfl
      · obtain ⟨iter', stack', hloop, hfull'', hpage, hrest, hsettled⟩ :=
          ih hfull' (Nat.le_of_succ_le hn)
        refine ⟨iter', stack', hloop, hfull'', hpage.trans hpage', ?_, hsettled⟩
        rw [hrest, hrest', append_assoc]
        rfl
    · have hnone : [l].filter (iter.Takes ·) = [] := by simp [show ¬ iter.Takes l from htakes]
      rw [if_neg htakes, hnone, append_nil]
      split
      · next hlt =>
        refine ⟨_, _, rfl, hfull, rfl, ?_, .inr ⟨rfl, l, hmem, le_of_lt hlt⟩⟩
        rw [filter_takes_eq_nil (fun l' hl' => lt_trans (hbelow l' hl') hlt)]
        rfl
      · exact ih hfull (Nat.le_of_succ_le hn)

variable {item : ItemHead} {next fuel : Nat} {chunks : List Chunk}

/-- `log_index_page_iterate_push_lsn` for the last of some segments. -/
theorem pageIteratePushLsn_spec (iter : PageIter) (hchain : Chain t item next chunks)
    (hfull : stack.Full)
    (hsorted : ((tailSuffixes item chunks).map t.combineLsn).Pairwise (· < ·)) :
    ∃ iter' stack',
      pageIteratePushLsn t (tailOf item.headSeg chunks) iter stack true =
        some (iter', stack', true) ∧
      stack'.Full ∧ stack'.prevPageLsn = stack.prevPageLsn ∧
      stack'.rest =
        ((tailSuffixes item chunks).map t.combineLsn).filter (iter.Takes ·) ++ stack.rest ∧
      iter.Settled iter' ((tailSuffixes item chunks).map t.combineLsn) := by
  have hspec := pushLsnLoop_spec iter hfull hsorted
    (fun idx hidx => hchain.getSegPrevLsn_tail hidx) le_rfl
  rw [take_length] at hspec
  rwa [pageIteratePushLsn, hchain.suffixesOf_tail]

/-- The segments of an item are scanned from the last one to the head. -/
theorem iterateSegs_spec (hchain : Chain t item next chunks) (hfull : stack.Full)
    (hstate : iter.state = .forward)
    (hsorted : ((suffixes item chunks).map t.combineLsn).Pairwise (· < ·))
    (hfuel : chunks.length < fuel) :
    ∃ iter' stack', iterateSegs t item fuel (tailOf item.headSeg chunks) iter stack true =
        some (iter', stack') ∧
      stack'.Full ∧ stack'.prevPageLsn = stack.prevPageLsn ∧
      stack'.rest = ((suffixes item chunks).map t.combineLsn).filter (iter.Takes ·) ++ stack.rest ∧
      iter.Settled iter' ((suffixes item chunks).map t.combineLsn) := by
  induction chunks generalizing next fuel stack with
  | nil =>
    obtain ⟨fuel, rfl⟩ := Nat.exists_eq_add_of_lt hfuel
    obtain ⟨iter', stack', hpush, hspec⟩ := pageIteratePushLsn_spec iter hchain hfull hsorted
    refine ⟨iter', stack', ?_, hspec⟩
    have hhead : tailOf item.headSeg [] = item.headSeg := rfl
    rw [iterateSegs, if_pos hhead, if_pos hstate, hpush, map_some]
  | cons c older ih =>
    obtain ⟨fuel, rfl⟩ := Nat.exists_eq_add_of_lt hfuel
    rw [suffixes, map_append] at hsorted ⊢
    obtain ⟨hsortedOlder, hsortedLast, hbelow⟩ := pairwise_append.mp hsorted
    obtain ⟨iter₁, stack₁, hpush, hfull₁, hpage₁, hrest₁, hsettled₁⟩ :=
      pageIteratePushLsn_spec iter hchain hfull hsortedLast
    rw [iterateSegs, tailOf, if_neg hchain.headSeg_ne.symm, hchain.itemSeg, bind_some,
      if_neg hchain.2.2.1.nonempty]
    rw [tailOf] at hpush
    rw [hpush, bind_some, filter_append]
    rcases hsettled₁ with rfl | ⟨rfl, l, hl, hle⟩
    · obtain ⟨iter', stack', hloop, hfull', hpage', hrest', hsettled'⟩ :=
        ih hchain.2.2.2 hfull₁ hsortedOlder (Nat.lt_add_right fuel (Nat.lt_succ_self _))
      simp only [hstate]
      refine ⟨iter', stack', hloop, hfull', hpage'.trans hpage₁, ?_, ?_⟩
      · rw [hrest', hrest₁, append_assoc]
        rfl
      · rcases hsettled' with rfl | ⟨rfl, l, hl, hle⟩
        · exact .inl rfl
        · exact .inr ⟨rfl, l, mem_append_left _ hl, hle⟩
    · -- The older segments hold smaller LSNs.
      refine ⟨_, stack₁, rfl, hfull₁, hpage₁, ?_, .inr ⟨rfl, l, mem_append_right _ hl, hle⟩⟩
      rw [filter_takes_eq_nil (fun l' hl' => lt_of_lt_of_le (hbelow l' hl' l hl) hle), hrest₁]
      rfl

end PageIter

end Polar.Logindex
