import Polar.Logindex.Table
import Mathlib.Data.List.Forall2
import Mathlib.Data.List.Infix

/-!
# The segments of an item

The LSNs of a tag lie in its item head and in the segments chained behind it. `Chain` describes
that list from its newest segment back, and `Grows` what an insertion may do to the segments of
the other items.
-/

namespace Polar.Logindex

open Option (map_eq_some_iff bind_eq_some_iff bind_some map_some)

namespace Table

@[simp]
theorem setSegment_segment_self (t : Table) (id : Nat) (seg : TblSeg) :
    (t.setSegment id seg).segment id = seg := by
  simp [setSegment]

theorem setSegment_segment_of_ne (t : Table) {id id' : Nat} (seg : TblSeg) (h : id' ≠ id) :
    (t.setSegment id seg).segment id' = t.segment id' := by
  simp [setSegment, h]

/-- An LSN is recovered from the table's upper half and its stored lower half. -/
theorem combineLsn_mod (t : Table) {lsn : Nat} (h : lsn >>> 32 = t.prefixLsn) :
    t.combineLsn (lsn % 2 ^ 32) = lsn := by
  rw [combineLsn, ← h, ← Nat.shiftLeft_add_eq_or_of_lt (Nat.mod_lt _ (by decide)),
    Nat.shiftRight_eq_div_pow, Nat.shiftLeft_eq]
  exact Nat.div_add_mod' lsn (2 ^ 32)

/-- LSNs with one upper half are ordered as their lower halves. -/
theorem suffix_lt_suffix {l l' : Nat} (hupper : l >>> 32 = l' >>> 32) (h : l < l') :
    l % 2 ^ 32 < l' % 2 ^ 32 := by
  omega

/-- The segment field of an order code does not truncate a segment id. -/
theorem segOrder_orderCode {segId idx : Nat} (hseg : segId < memTblSegNum) :
    segOrder (orderCode segId idx) = segId := by
  have hidx : ((idx <<< 12) &&& 0xF000) &&& 0x0FFF = 0 := by
    rw [Nat.and_assoc]
    exact Nat.and_zero _
  have hself : (segId &&& 0x0FFF) = segId := by
    rw [show 0x0FFF = 2 ^ 12 - 1 from rfl, Nat.and_two_pow_sub_one_eq_mod]
    exact Nat.mod_eq_of_lt hseg
  rw [segOrder, orderCode, Nat.and_or_distrib_right, hidx, hself, hself, Nat.or_zero]

/-- The index field of an order code does not truncate an index. -/
theorem idOrder_orderCode {segId idx : Nat} (hidx : idx < 0xF000 >>> 12) :
    idOrder (orderCode segId idx) = idx := by
  have hidx' : idx < 2 ^ 4 := lt_trans hidx (by decide)
  have hseg : (segId &&& 0x0FFF) &&& 0xF000 = 0 := by
    rw [Nat.and_assoc]
    exact Nat.and_zero _
  have hmask : (0xF000 : Nat) >>> 12 = 2 ^ 4 - 1 := by decide
  rw [idOrder, orderCode, Nat.and_or_distrib_right, hseg, Nat.zero_or, Nat.and_assoc,
    Nat.and_self, Nat.shiftRight_and_distrib, hmask, Nat.and_two_pow_sub_one_eq_mod,
    Nat.shiftLeft_shiftRight]
  exact Nat.mod_eq_of_lt hidx'

variable {t : Table}

theorem itemHead_eq_some {id : Nat} {item : ItemHead} :
    t.itemHead id = some item ↔ id ≠ invalidSeg ∧ t.segment id = .itemHead item := by
  unfold itemHead
  split
  · next h => simp [h]
  · next h => split <;> simp_all

theorem itemSeg_eq_some {id : Nat} {seg : ItemSeg} :
    t.itemSeg id = some seg ↔ id ≠ invalidSeg ∧ t.segment id = .itemSeg seg := by
  unfold itemSeg
  split
  · next h => simp [h]
  · next h => split <;> simp_all

theorem headSegOf_eq_some {id head : Nat} : t.headSegOf id = some head ↔
      (∃ item, t.itemHead id = some item ∧ item.headSeg = head) ∨
      (∃ seg, t.itemSeg id = some seg ∧ seg.headSeg = head) := by
  unfold headSegOf itemHead itemSeg
  split
  · simp
  · split <;> rename_i hseg <;> simp [hseg]

end Table

/-! ## The chain of an item -/

/-- A segment after the item head. -/
structure Chunk where
  id : Nat
  suffixLsn : List Nat

/-- The last segment of an item, for its further segments from the newest to the oldest. -/
def tailOf (head : Nat) : List Chunk → Nat
  | [] => head
  | c :: _ => c.id

/-- A segment holds LSNs up to its capacity, and is full once another one follows. -/
structure Filled (capacity next : Nat) (suffixLsn : List Nat) : Prop where
  nonempty : suffixLsn ≠ []
  le : suffixLsn.length ≤ capacity
  full : next ≠ invalidSeg → suffixLsn.length = capacity

/-- The segments of an item, from the newest to the oldest, before the segment `next`. Ids fall
along the chain, since segments are taken in rising order. -/
def Chain (t : Table) (item : ItemHead) : Nat → List Chunk → Prop
  | next, [] =>
    item.headSeg ≠ invalidSeg ∧ t.segment item.headSeg = .itemHead item ∧
      item.nextSeg = next ∧ Filled itemHeadLsnNum next item.suffixLsn
  | next, c :: older =>
    tailOf item.headSeg older < c.id ∧
      t.segment c.id = .itemSeg
        { headSeg := item.headSeg, nextSeg := next, prevSeg := tailOf item.headSeg older,
          suffixLsn := c.suffixLsn } ∧
      Filled itemSegLsnNum next c.suffixLsn ∧ Chain t item c.id older

/-- The LSN suffixes of an item from the oldest to the newest. -/
def suffixes (item : ItemHead) : List Chunk → List Nat
  | [] => item.suffixLsn
  | c :: older => suffixes item older ++ c.suffixLsn

namespace Chain

variable {t t' : Table} {item item' : ItemHead} {next : Nat} {chunks : List Chunk}

section

variable (h : Chain t item next chunks)
include h

theorem head : item.headSeg ≠ invalidSeg ∧ t.segment item.headSeg = .itemHead item := by
  induction chunks generalizing next with
  | nil => exact ⟨h.1, h.2.1⟩
  | cons c older ih => exact ih h.2.2.2

theorem itemHead : t.itemHead item.headSeg = some item :=
  Table.itemHead_eq_some.mpr h.head

theorem headSeg_le_tail : item.headSeg ≤ tailOf item.headSeg chunks := by
  induction chunks generalizing next with
  | nil => exact le_rfl
  | cons c older ih =>
    have := ih h.2.2.2
    have := h.1
    simp only [tailOf] at *
    omega

/-- Segments are linked in the order they were taken. -/
theorem length_lt_tail : chunks.length < tailOf item.headSeg chunks := by
  induction chunks generalizing next with
  | nil => exact Nat.pos_of_ne_zero h.head.1
  | cons c older ih => exact lt_of_le_of_lt (ih h.2.2.2) h.1

theorem suffixLsn_ne_nil : item.suffixLsn ≠ [] := by
  induction chunks generalizing next with
  | nil => exact h.2.2.2.nonempty
  | cons c older ih => exact ih h.2.2.2

theorem suffixes_ne_nil : suffixes item chunks ≠ [] := by
  cases chunks with
  | nil => exact h.2.2.2.nonempty
  | cons c older => simp [suffixes, h.2.2.1.nonempty]

end

/-- A chain moves to a table that keeps the item's segments, and to an item head that differs in
its tail and its place in the hash chain only. -/
theorem transport (h : Chain t item next chunks) (hheadSeg : item'.headSeg = item.headSeg)
    (hnextSeg : item'.nextSeg = item.nextSeg) (hsuffix : item'.suffixLsn = item.suffixLsn)
    (hitem : t'.segment item.headSeg = .itemHead item')
    (hseg : ∀ id, id ≠ item.headSeg → id ≤ tailOf item.headSeg chunks →
      t.headSegOf id = some item.headSeg → t'.segment id = t.segment id) :
    Chain t' item' next chunks := by
  induction chunks generalizing next with
  | nil =>
    obtain ⟨hne, -, hnext, hfilled⟩ := h
    refine ⟨?_, ?_, ?_, ?_⟩
    · rwa [hheadSeg]
    · rwa [hheadSeg]
    · rwa [hnextSeg]
    · rwa [hsuffix]
  | cons c older ih =>
    obtain ⟨hlt, hc, hfilled, hrest⟩ := h
    have hle := hrest.headSeg_le_tail
    have howner : t.headSegOf c.id = some item.headSeg := by
      refine Table.headSegOf_eq_some.mpr (.inr ⟨_, Table.itemSeg_eq_some.mpr ⟨?_, hc⟩, rfl⟩)
      simp only [invalidSeg]
      omega
    refine ⟨?_, ?_, hfilled, ih hrest ?_⟩
    · rwa [hheadSeg]
    · rw [hseg c.id (by omega) le_rfl howner, hc, hheadSeg]
    · intro id hne hid hown
      refine hseg id hne ?_ hown
      simp only [tailOf]
      omega

end Chain

theorem suffixes_congr {item item' : ItemHead} (chunks : List Chunk)
    (h : item'.suffixLsn = item.suffixLsn) : suffixes item' chunks = suffixes item chunks := by
  induction chunks with
  | nil => exact h
  | cons c older ih => simp [suffixes, ih]

/-- The item of a tag, with the LSN suffixes stored along its chain. -/
def IsItem (t : Table) (head : Nat) (tag : BufferTag) (suffixLsn : List Nat) : Prop :=
  ∃ item chunks, item.headSeg = head ∧ item.tag = tag ∧ item.prevPageLsn = invalidLsn ∧
    item.tailSeg = tailOf head chunks ∧ Chain t item invalidSeg chunks ∧
    suffixes item chunks = suffixLsn

variable {t t' : Table}

/-- An item is kept by what does not touch its segments. -/
theorem IsItem.frame {head : Nat} {tag : BufferTag} {suffixLsn : List Nat}
    (h : IsItem t head tag suffixLsn)
    (hseg : ∀ id, t.headSegOf id = some head → t'.segment id = t.segment id) :
    IsItem t' head tag suffixLsn := by
  obtain ⟨item, chunks, rfl, htag, hprev, htail, hchain, hsuffix⟩ := h
  refine ⟨item, chunks, rfl, htag, hprev, htail, ?_, hsuffix⟩
  refine hchain.transport rfl rfl rfl ?_ fun id _ _ hown => hseg id hown
  rw [hseg _ (Table.headSegOf_eq_some.mpr (.inl ⟨item, hchain.itemHead, rfl⟩))]
  exact hchain.head.2

/-! ## Growing tables -/

/-- Every segment of `t` is still one in `t'`, with the same owner and at least its LSNs. -/
structure Grows (t t' : Table) : Prop where
  prefixLsn : t'.prefixLsn = t.prefixLsn
  head : ∀ {id item}, t.itemHead id = some item → ∃ item', t'.itemHead id = some item' ∧
    item'.headSeg = item.headSeg ∧ item'.nextItem = item.nextItem ∧ item'.tag = item.tag ∧
    item'.prevPageLsn = item.prevPageLsn ∧ item.suffixLsn <+: item'.suffixLsn
  seg : ∀ {id seg}, t.itemSeg id = some seg → ∃ seg', t'.itemSeg id = some seg' ∧
    seg'.headSeg = seg.headSeg ∧ seg'.prevSeg = seg.prevSeg ∧ seg.suffixLsn <+: seg'.suffixLsn

namespace Grows

variable {t t' t'' : Table}

theorem trans (h : Grows t t') (h' : Grows t' t'') : Grows t t'' where
  prefixLsn := h'.prefixLsn.trans h.prefixLsn
  head hitem := by
    obtain ⟨item', hitem', e₁, e₂, e₃, e₄, hle⟩ := h.head hitem
    obtain ⟨item'', hitem'', e₁', e₂', e₃', e₄', hle'⟩ := h'.head hitem'
    exact ⟨item'', hitem'', e₁'.trans e₁, e₂'.trans e₂, e₃'.trans e₃, e₄'.trans e₄,
      hle.trans hle'⟩
  seg hseg := by
    obtain ⟨seg', hseg', e₁, e₂, hle⟩ := h.seg hseg
    obtain ⟨seg'', hseg'', e₁', e₂', hle'⟩ := h'.seg hseg'
    exact ⟨seg'', hseg'', e₁'.trans e₁, e₂'.trans e₂, hle.trans hle'⟩

/-- Data beside the segments may change. -/
theorem of_segment_eq (hprefixLsn : t'.prefixLsn = t.prefixLsn)
    (hsegment : t'.segment = t.segment) : Grows t t' where
  prefixLsn := hprefixLsn
  head {id item} hitem := by
    refine ⟨item, ?_, rfl, rfl, rfl, rfl, List.prefix_rfl⟩
    rwa [Table.itemHead, hsegment]
  seg {id seg} hseg := by
    refine ⟨seg, ?_, rfl, rfl, List.prefix_rfl⟩
    rwa [Table.itemSeg, hsegment]

variable {id : Nat}

/-- A segment may be written that keeps the owner and at least the LSNs of the one before. -/
theorem setSegment {new : TblSeg}
    (hhead : ∀ item, t.itemHead id = some item → ∃ item', new = .itemHead item' ∧
      item'.headSeg = item.headSeg ∧ item'.nextItem = item.nextItem ∧ item'.tag = item.tag ∧
      item'.prevPageLsn = item.prevPageLsn ∧ item.suffixLsn <+: item'.suffixLsn)
    (hseg : ∀ seg, t.itemSeg id = some seg → ∃ seg', new = .itemSeg seg' ∧
      seg'.headSeg = seg.headSeg ∧ seg'.prevSeg = seg.prevSeg ∧ seg.suffixLsn <+: seg'.suffixLsn) :
    Grows t (t.setSegment id new) where
  prefixLsn := rfl
  head {id₁ item} hitem := by
    by_cases hid : id₁ = id
    · subst hid
      obtain ⟨item', rfl, hkeeps⟩ := hhead item hitem
      refine ⟨item', Table.itemHead_eq_some.mpr ⟨(Table.itemHead_eq_some.mp hitem).1, ?_⟩, hkeeps⟩
      exact t.setSegment_segment_self _ _
    · refine ⟨item, ?_, rfl, rfl, rfl, rfl, List.prefix_rfl⟩
      rwa [Table.itemHead, Table.setSegment_segment_of_ne _ _ hid]
  seg {id₁ seg} hitem := by
    by_cases hid : id₁ = id
    · subst hid
      obtain ⟨seg', rfl, hkeeps⟩ := hseg seg hitem
      refine ⟨seg', Table.itemSeg_eq_some.mpr ⟨(Table.itemSeg_eq_some.mp hitem).1, ?_⟩, hkeeps⟩
      exact t.setSegment_segment_self _ _
    · refine ⟨seg, ?_, rfl, rfl, List.prefix_rfl⟩
      rwa [Table.itemSeg, Table.setSegment_segment_of_ne _ _ hid]

/-- Taking a free segment changes no other one. -/
theorem setSegment_free (hfree : t.segment id = .free) (new : TblSeg) :
    Grows t (t.setSegment id new) := by
  apply setSegment
  · intro item hitem
    simp [Table.itemHead, hfree] at hitem
  · intro seg hseg
    simp [Table.itemSeg, hfree] at hseg

/-- An item head may change its links and gain LSNs. -/
theorem setSegment_head {item item' : ItemHead} (hitem : t.itemHead id = some item)
    (hheadSeg : item'.headSeg = item.headSeg) (hnextItem : item'.nextItem = item.nextItem)
    (htag : item'.tag = item.tag) (hprev : item'.prevPageLsn = item.prevPageLsn)
    (hsuffix : item.suffixLsn <+: item'.suffixLsn) :
    Grows t (t.setSegment id (.itemHead item')) := by
  apply setSegment
  · intro item₁ hitem₁
    obtain rfl : item = item₁ := Option.some.inj (hitem.symm.trans hitem₁)
    exact ⟨item', rfl, hheadSeg, hnextItem, htag, hprev, hsuffix⟩
  · intro seg hseg
    simp [Table.itemSeg, (Table.itemHead_eq_some.mp hitem).2] at hseg

/-- A further segment may change its successor and gain LSNs. -/
theorem setSegment_seg {seg seg' : ItemSeg} (hseg : t.itemSeg id = some seg)
    (hheadSeg : seg'.headSeg = seg.headSeg) (hprevSeg : seg'.prevSeg = seg.prevSeg)
    (hsuffix : seg.suffixLsn <+: seg'.suffixLsn) : Grows t (t.setSegment id (.itemSeg seg')) := by
  apply setSegment
  · intro item hitem
    simp [Table.itemHead, (Table.itemSeg_eq_some.mp hseg).2] at hitem
  · intro seg₁ hseg₁
    obtain rfl : seg = seg₁ := Option.some.inj (hseg.symm.trans hseg₁)
    exact ⟨seg', rfl, hheadSeg, hprevSeg, hsuffix⟩

theorem headSegOf (h : Grows t t') {id headSeg : Nat} (hid : t.headSegOf id = some headSeg) :
    t'.headSegOf id = some headSeg := by
  rcases Table.headSegOf_eq_some.mp hid with ⟨item, hitem, rfl⟩ | ⟨seg, hseg, rfl⟩
  · obtain ⟨item', hitem', e, -⟩ := h.head hitem
    exact Table.headSegOf_eq_some.mpr (.inl ⟨item', hitem', e⟩)
  · obtain ⟨seg', hseg', e, -⟩ := h.seg hseg
    exact Table.headSegOf_eq_some.mpr (.inr ⟨seg', hseg', e⟩)

theorem suffixesOf (h : Grows t t') {suffixLsn : List Nat}
    (hid : t.suffixesOf id = some suffixLsn) :
    ∃ suffixLsn', t'.suffixesOf id = some suffixLsn' ∧ suffixLsn <+: suffixLsn' := by
  obtain ⟨headSeg, hown, hsuffix⟩ := bind_eq_some_iff.mp hid
  rw [Table.suffixesOf, h.headSegOf hown]
  simp only [bind_some]
  split at hsuffix
  · next hself =>
    obtain ⟨item, hitem, rfl⟩ := map_eq_some_iff.mp hsuffix
    obtain ⟨item', hitem', -, -, -, -, hle⟩ := h.head hitem
    exact ⟨_, by rw [if_pos hself, hitem', map_some], hle⟩
  · next hself =>
    obtain ⟨seg, hseg, rfl⟩ := map_eq_some_iff.mp hsuffix
    obtain ⟨seg', hseg', -, -, hle⟩ := h.seg hseg
    exact ⟨_, by rw [if_neg hself, hseg', map_some], hle⟩

theorem getSegPageTag (h : Grows t t') {tag : BufferTag}
    (hid : t.getSegPageTag id = some tag) : t'.getSegPageTag id = some tag := by
  obtain ⟨headSeg, hown, htag⟩ := bind_eq_some_iff.mp hid
  obtain ⟨item, hitem, rfl⟩ := map_eq_some_iff.mp htag
  obtain ⟨item', hitem', -, -, e, -⟩ := h.head hitem
  rw [Table.getSegPageTag, h.headSegOf hown, bind_some, hitem', map_some, e]

end Grows

theorem getElem?_of_isPrefix {xs ys : List Nat} {i x : Nat} (h : xs <+: ys)
    (hx : xs[i]? = some x) : ys[i]? = some x := by
  obtain ⟨rest, rfl⟩ := h
  obtain ⟨hi, -⟩ := List.getElem?_eq_some_iff.mp hx
  rwa [List.getElem?_append_left hi]

/-- A non-empty list that grows keeps a last element. -/
theorem exists_getLast_of_isPrefix {xs ys : List Nat} {x : Nat} (h : xs <+: ys)
    (hx : xs.getLast? = some x) : ∃ y, ys.getLast? = some y := by
  have hne : ys ≠ [] := by
    rintro rfl
    simp [List.prefix_nil.mp h] at hx
  exact ⟨_, List.getLast?_eq_some_getLast hne⟩

theorem Grows.getSegPrevLsn (h : Grows t t') {id idx prev : Nat}
    (hprev : t.getSegPrevLsn id idx = some prev) :
    ∃ prev', t'.getSegPrevLsn id idx = some prev' := by
  obtain ⟨headSeg, hown, hrest⟩ := bind_eq_some_iff.mp hprev
  rw [Table.getSegPrevLsn, h.headSegOf hown]
  simp only [bind_some]
  split at hrest
  · next hself =>
    obtain ⟨item, hitem, hrest⟩ := bind_eq_some_iff.mp hrest
    obtain ⟨item', hitem', -, -, -, -, hle⟩ := h.head hitem
    rw [if_pos hself, hitem', bind_some]
    split at hrest
    · next hidx => exact ⟨_, if_pos hidx⟩
    · next hidx =>
      obtain ⟨suffix, hsuffix, -⟩ := map_eq_some_iff.mp hrest
      exact ⟨_, by rw [if_neg hidx, getElem?_of_isPrefix hle hsuffix, map_some]⟩
  · next hself =>
    obtain ⟨seg, hseg, hrest⟩ := bind_eq_some_iff.mp hrest
    obtain ⟨seg', hseg', ehead, eprev, hle⟩ := h.seg hseg
    rw [if_neg hself, hseg', bind_some, ehead, eprev]
    split at hrest
    · next hidx =>
      obtain ⟨suffix, hsuffix, -⟩ := map_eq_some_iff.mp hrest
      exact ⟨_, by rw [if_pos hidx, getElem?_of_isPrefix hle hsuffix, map_some]⟩
    · next hidx =>
      rw [if_neg hidx]
      split at hrest
      · next hfirst =>
        obtain ⟨item, hitem, hrest⟩ := bind_eq_some_iff.mp hrest
        obtain ⟨item', hitem', -, -, -, -, hle'⟩ := h.head hitem
        obtain ⟨suffix, hsuffix, -⟩ := map_eq_some_iff.mp hrest
        obtain ⟨suffix', hsuffix'⟩ := exists_getLast_of_isPrefix hle' hsuffix
        exact ⟨_, by rw [if_pos hfirst, hitem', bind_some, hsuffix', map_some]⟩
      · next hfirst =>
        obtain ⟨prevSeg, hprevSeg, hrest⟩ := bind_eq_some_iff.mp hrest
        obtain ⟨prevSeg', hprevSeg', -, -, hle'⟩ := h.seg hprevSeg
        obtain ⟨suffix, hsuffix, -⟩ := map_eq_some_iff.mp hrest
        obtain ⟨suffix', hsuffix'⟩ := exists_getLast_of_isPrefix hle' hsuffix
        exact ⟨_, by rw [if_neg hfirst, hprevSeg', bind_some, hsuffix',
          map_some]⟩

/-- What the order array points at stays readable in a table that grows. -/
theorem Grows.orderLsnInfo (h : Grows t t') {code prev : Nat} {e : Entry}
    (hcode : t.orderLsnInfo code = some { e with prevLsn := prev }) :
    ∃ prev', t'.orderLsnInfo code = some { e with prevLsn := prev' } := by
  obtain ⟨suffixLsn, hsuffixes, hcode⟩ := bind_eq_some_iff.mp hcode
  obtain ⟨suffix, hsuffix, hcode⟩ := bind_eq_some_iff.mp hcode
  obtain ⟨prev, hprev, hcode⟩ := bind_eq_some_iff.mp hcode
  obtain ⟨tag, htag, hcode⟩ := map_eq_some_iff.mp hcode
  obtain ⟨suffixLsn', hsuffixes', hle⟩ := h.suffixesOf hsuffixes
  obtain ⟨prev', hprev'⟩ := h.getSegPrevLsn hprev
  refine ⟨prev', ?_⟩
  rw [Table.orderLsnInfo, hsuffixes', bind_some, getElem?_of_isPrefix hle hsuffix,
    bind_some, hprev', bind_some, h.getSegPageTag htag, map_some]
  simp only [LsnInfo.mk.injEq] at hcode
  simp only [Table.combineLsn, h.prefixLsn]
  simp only [Table.combineLsn] at hcode
  rw [← hcode.1]

/-! ## The last LSN of an item -/

/-- The LSN suffixes of the last segment. -/
def tailSuffixes (item : ItemHead) : List Chunk → List Nat
  | [] => item.suffixLsn
  | c :: _ => c.suffixLsn

namespace Chain

variable {t : Table} {item : ItemHead} {next : Nat} {chunks : List Chunk}

variable (h : Chain t item next chunks)
include h

theorem tailSuffixes_ne_nil : tailSuffixes item chunks ≠ [] := by
  cases chunks with
  | nil => exact h.2.2.2.nonempty
  | cons c older => exact h.2.2.1.nonempty

theorem tailSuffixes_length_le :
    (tailSuffixes item chunks).length ≤ itemSegLsnNum := by
  cases chunks with
  | nil => exact le_trans h.2.2.2.le (by decide)
  | cons c older => exact h.2.2.1.le

theorem suffixes_getLast? :
    (suffixes item chunks).getLast? = (tailSuffixes item chunks).getLast? := by
  cases chunks with
  | nil => rfl
  | cons c older => exact List.getLast?_append_of_ne_nil _ h.2.2.1.nonempty

omit h in
theorem itemSeg {c : Chunk} (h : Chain t item next (c :: chunks)) :
    t.itemSeg c.id = some
      { headSeg := item.headSeg, nextSeg := next, prevSeg := tailOf item.headSeg chunks,
        suffixLsn := c.suffixLsn } := by
  refine Table.itemSeg_eq_some.mpr ⟨?_, h.2.1⟩
  have := h.1
  simp only [invalidSeg]
  omega

theorem headSegOf_tail :
    t.headSegOf (tailOf item.headSeg chunks) = some item.headSeg := by
  cases chunks with
  | nil => exact Table.headSegOf_eq_some.mpr (.inl ⟨item, h.itemHead, rfl⟩)
  | cons c older => exact Table.headSegOf_eq_some.mpr (.inr ⟨_, h.itemSeg, rfl⟩)

omit h in
theorem headSeg_ne {c : Chunk} (h : Chain t item next (c :: chunks)) : item.headSeg ≠ c.id := by
  have := h.2.2.2.headSeg_le_tail
  have := h.1
  omega

theorem suffixesOf_tail :
    t.suffixesOf (tailOf item.headSeg chunks) = some (tailSuffixes item chunks) := by
  rw [Table.suffixesOf, h.headSegOf_tail, bind_some]
  cases chunks with
  | nil => simp only [tailOf, h.itemHead, if_true, map_some, tailSuffixes]
  | cons c older =>
    simp only [tailOf, if_neg h.headSeg_ne, h.itemSeg, map_some, tailSuffixes]

theorem getSegPageTag_tail :
    t.getSegPageTag (tailOf item.headSeg chunks) = some item.tag := by
  rw [Table.getSegPageTag, h.headSegOf_tail, bind_some, h.itemHead, map_some]

/-- The LSN before any LSN of the last segment can be read. -/
theorem getSegPrevLsn_tail {idx : Nat} (hidx : idx < (tailSuffixes item chunks).length) :
    ∃ prev, t.getSegPrevLsn (tailOf item.headSeg chunks) idx = some prev := by
  rw [Table.getSegPrevLsn, h.headSegOf_tail, bind_some]
  cases chunks with
  | nil =>
    simp only [tailOf, if_true, h.itemHead, bind_some]
    split
    · exact ⟨_, rfl⟩
    · exact ⟨_, by rw [List.getElem?_eq_getElem (by simp only [tailSuffixes] at hidx; omega),
        map_some]⟩
  | cons c older =>
    simp only [tailOf, if_neg h.headSeg_ne, h.itemSeg, bind_some]
    split
    · exact ⟨_, by rw [List.getElem?_eq_getElem (by simp only [tailSuffixes] at hidx; omega),
        map_some]⟩
    · have hlast := List.getLast?_eq_some_getLast h.2.2.2.tailSuffixes_ne_nil
      cases older with
      | nil =>
        simp only [if_true, h.2.2.2.itemHead, bind_some]
        exact ⟨_, by rw [show item.suffixLsn.getLast? = _ from hlast, map_some]⟩
      | cons d older =>
        simp only [if_neg h.2.2.2.headSeg_ne.symm, h.2.2.2.itemSeg, bind_some]
        exact ⟨_, by rw [show d.suffixLsn.getLast? = _ from hlast, map_some]⟩

end Chain

end Polar.Logindex
