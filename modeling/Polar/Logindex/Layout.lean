import Polar.Logindex.Chain
import Mathlib.Data.List.Nodup

/-!
# What a logindex table stores

`Layout` relates the linked structures of a table to the list of entries inserted into it: each
tag's LSNs lie along the chain of its item, each hash chain holds the items of its slot, and the
order array lists the entries as they came.
-/

namespace Polar.Logindex

open List Option
open Option (bind_some map_some)

/-! ## Hash chains -/

/-- The item heads linked from `id` through `next_item`. -/
def HashChain (t : Table) : Nat → List Nat → Prop
  | id, [] => id = invalidSeg
  | id, head :: heads =>
    id = head ∧ ∃ item, t.itemHead head = some item ∧ HashChain t item.nextItem heads

theorem HashChain.grows {t t' : Table} (hgrows : Grows t t') {id : Nat} {heads : List Nat}
    (h : HashChain t id heads) : HashChain t' id heads := by
  induction heads generalizing id with
  | nil => exact h
  | cons head heads ih =>
    obtain ⟨rfl, item, hitem, hrest⟩ := h
    obtain ⟨item', hitem', -, hnext, -⟩ := hgrows.head hitem
    exact ⟨rfl, item', hitem', hnext ▸ ih hrest⟩

variable {t : Table} {tag : BufferTag}

/-- The search of a hash chain ends at the item of the tag, or at the end of the chain. -/
theorem HashChain.existsPageFrom {fuel id : Nat}
    {heads : List Nat} (h : HashChain t id heads) (hfuel : heads.length < fuel) :
    (t.existsPageFrom tag fuel id ∈ heads ∧
        ∃ item, t.itemHead (t.existsPageFrom tag fuel id) = some item ∧ item.tag = tag) ∨
      (t.existsPageFrom tag fuel id = invalidSeg ∧
        ∀ head ∈ heads, ∀ item, t.itemHead head = some item → item.tag ≠ tag) := by
  induction heads generalizing id fuel with
  | nil =>
    obtain ⟨fuel, rfl⟩ := Nat.exists_eq_add_one_of_ne_zero (Nat.ne_of_gt hfuel)
    have hend : t.itemHead id = none := by
      rw [Table.itemHead, if_pos (show id = invalidSeg from h)]
    refine .inr ⟨?_, by simp⟩
    simp only [Table.existsPageFrom, hend]
    exact h
  | cons head heads ih =>
    obtain ⟨rfl, item, hitem, hrest⟩ := h
    obtain ⟨fuel, rfl⟩ := Nat.exists_eq_add_one_of_ne_zero (Nat.ne_of_gt (Nat.zero_lt_of_lt hfuel))
    simp only [Table.existsPageFrom, hitem]
    by_cases htag : item.tag = tag
    · rw [if_pos htag]
      exact .inl ⟨mem_cons_self, item, hitem, htag⟩
    · rw [if_neg htag]
      rcases ih hrest (Nat.lt_of_succ_lt_succ hfuel) with ⟨hmem, hfound⟩ | ⟨hend, hnone⟩
      · exact .inl ⟨mem_cons_of_mem _ hmem, hfound⟩
      · refine .inr ⟨hend, fun head hhead item' hitem' => ?_⟩
        rcases mem_cons.mp hhead with rfl | hhead
        · rwa [← some.inj (hitem.symm.trans hitem')]
        · exact hnone head hhead item' hitem'

/-! ## The layout of a table -/

/-- An item whose last LSN is number `idx` of the segment `segId`. -/
def IsItemAt (t : Table) (head : Nat) (tag : BufferTag) (suffixLsn : List Nat)
    (segId idx : Nat) : Prop :=
  ∃ item chunks, item.headSeg = head ∧ item.tag = tag ∧ item.prevPageLsn = invalidLsn ∧
    item.tailSeg = tailOf head chunks ∧ Chain t item invalidSeg chunks ∧
    suffixes item chunks = suffixLsn ∧ segId = tailOf head chunks ∧
    idx + 1 = (tailSuffixes item chunks).length

variable {suffixLsn : List Nat}

theorem IsItemAt.isItem {head segId idx : Nat} (h : IsItemAt t head tag suffixLsn segId idx) :
    IsItem t head tag suffixLsn := by
  obtain ⟨item, chunks, e₁, e₂, e₃, e₄, hchain, hsuffix, -⟩ := h
  exact ⟨item, chunks, e₁, e₂, e₃, e₄, hchain, hsuffix⟩

/-- The order code of the last LSN of an item reads that LSN. -/
theorem IsItemAt.orderLsnInfo {head segId idx lsn : Nat}
    (h : IsItemAt t head tag (suffixLsn ++ [lsn % 2 ^ 32]) segId idx)
    (hseg : segId < memTblSegNum) (hupper : lsn >>> 32 = t.prefixLsn) : idx < 0xF000 >>> 12 ∧
      ∃ prev, t.orderLsnInfo (Table.orderCode segId idx) = some ⟨⟨tag, lsn⟩, prev⟩ := by
  obtain ⟨item, chunks, rfl, rfl, -, -, hchain, hsuffix, rfl, hidx⟩ := h
  have hidx_lt : idx < 0xF000 >>> 12 := by
    have hle := hchain.tailSuffixes_length_le
    simp only [itemSegLsnNum] at hle
    omega
  have hlast : (tailSuffixes item chunks)[idx]? = some (lsn % 2 ^ 32) := by
    rw [← Nat.add_sub_cancel idx 1, hidx, ← List.getLast?_eq_getElem?, ← hchain.suffixes_getLast?,
      hsuffix, List.getLast?_concat]
  obtain ⟨prev, hprev⟩ := hchain.getSegPrevLsn_tail
    (show idx < (tailSuffixes item chunks).length by omega)
  refine ⟨hidx_lt, prev, ?_⟩
  rw [Table.orderLsnInfo, Table.segOrder_orderCode hseg, Table.idOrder_orderCode hidx_lt,
    hchain.suffixesOf_tail, bind_some, hlast, bind_some, hprev, bind_some,
    hchain.getSegPageTag_tail, map_some, t.combineLsn_mod hupper]

/-- The LSN suffixes of a tag among the entries. -/
def suffixesFor (es : List Entry) (tag : BufferTag) : List Nat :=
  (es.filter (·.tag = tag)).map (·.lsn % 2 ^ 32)

theorem suffixesFor_append_self (es : List Entry) (e : Entry) :
    suffixesFor (es ++ [e]) e.tag = suffixesFor es e.tag ++ [e.lsn % 2 ^ 32] := by
  simp [suffixesFor]

theorem suffixesFor_append_of_ne (es : List Entry) {e : Entry}
    (h : e.tag ≠ tag) : suffixesFor (es ++ [e]) tag = suffixesFor es tag := by
  simp [suffixesFor, h]

/-- A table whose segments below `free` hold the entries `es`, for the item heads `heads` from the
newest to the oldest. -/
structure Layout (tagHash : BufferTag → Nat) (t : Table) (free : Nat)
    (heads : List (Nat × BufferTag)) (es : List Entry) : Prop where
  free_le : free ≤ memTblSegNum
  count : heads.length < free
  unused : ∀ id, free ≤ id → t.segment id = .free
  tags : (heads.map (·.2)).Nodup
  chains : ∀ key, HashChain t (t.hash key)
    ((heads.filter (hashPage tagHash ·.2 = key)).map (·.1))
  items : ∀ h ∈ heads, IsItem t h.1 h.2 (suffixesFor es h.2)
  covered : ∀ e ∈ es, ∃ head, (head, e.tag) ∈ heads
  order : List.Forall₂ (fun code e => ∃ prev, t.orderLsnInfo code = some ⟨e, prev⟩) t.idxOrder es
  upper : ∀ e ∈ es, e.lsn >>> 32 = t.prefixLsn

namespace Layout

variable {tagHash : BufferTag → Nat} {t t' : Table} {free : Nat}
  {heads heads' : List (Nat × BufferTag)} {es : List Entry}

/-- A table without entries, as a zeroed slot becomes one. -/
theorem empty (hsegment : t.segment = Table.zero.segment) (hhash : t.hash = Table.zero.hash)
    (horder : t.idxOrder = []) : Layout tagHash t 1 [] [] where
  free_le := by decide
  count := by decide
  unused id _ := by rw [hsegment, Table.zero]
  tags := nodup_nil
  chains key := by
    rw [hhash]
    rfl
  items := by simp
  covered := by simp
  order := by
    rw [horder]
    exact .nil
  upper := by simp

section

variable (h : Layout tagHash t free heads es)
include h

variable {head : Nat}

theorem head_ne {tag : BufferTag}
    (hmem : (head, tag) ∈ heads) : head ≠ invalidSeg ∧ head < free := by
  obtain ⟨item, chunks, rfl, -, -, -, hchain, -⟩ := h.items _ hmem
  refine ⟨hchain.head.1, ?_⟩
  by_contra hge
  have := h.unused _ (Nat.le_of_not_lt hge)
  simp [hchain.head.2] at this

theorem itemHead {tag : BufferTag} (hmem : (head, tag) ∈ heads) :
    ∃ item, t.itemHead head = some item ∧ item.headSeg = head ∧ item.tag = tag := by
  obtain ⟨item, chunks, rfl, htag, -, -, hchain, -⟩ := h.items _ hmem
  exact ⟨item, hchain.itemHead, rfl, htag⟩

/-- The search for a tag finds its item head, if it has one. -/
theorem existsPage (tag : BufferTag) : (t.existsPage tag (hashPage tagHash tag), tag) ∈ heads ∨
      (t.existsPage tag (hashPage tagHash tag) = invalidSeg ∧ ∀ head, (head, tag) ∉ heads) := by
  have hfuel : ((heads.filter (hashPage tagHash ·.2 = hashPage tagHash tag)).map (·.1)).length <
      memTblSegNum := by
    rw [length_map]
    have := length_filter_le (hashPage tagHash ·.2 = hashPage tagHash tag) heads
    have := h.count
    have := h.free_le
    omega
  rcases (h.chains _).existsPageFrom hfuel with ⟨hmem, item, hitem, htag⟩ | ⟨hend, hnone⟩
  · obtain ⟨⟨head, tag'⟩, hhead, hid⟩ := mem_map.mp hmem
    have hhead := (mem_filter.mp hhead).1
    obtain ⟨item', hitem', -, htag'⟩ := h.itemHead hhead
    rw [Table.existsPage, ← hid]
    rw [← hid] at hitem
    obtain rfl : item' = item := some.inj (hitem'.symm.trans hitem)
    rw [← htag, htag']
    exact .inl hhead
  · refine .inr ⟨hend, fun head hhead => ?_⟩
    obtain ⟨item, hitem, -, htag⟩ := h.itemHead hhead
    refine hnone head (mem_map.mpr ⟨(head, tag), ?_, rfl⟩) item hitem htag
    exact mem_filter.mpr ⟨hhead, by simp⟩

/-- A segment is the head of one tag. -/
theorem tag_unique {tag tag' : BufferTag}
    (hmem : (head, tag) ∈ heads) (hmem' : (head, tag') ∈ heads) : tag = tag' := by
  obtain ⟨item, hitem, -, rfl⟩ := h.itemHead hmem
  obtain ⟨item', hitem', -, rfl⟩ := h.itemHead hmem'
  rw [some.inj (hitem.symm.trans hitem')]

end

/-- An insertion that puts an LSN behind the last one of its tag, in the table and in the order
array, and leaves the other items alone. -/
theorem insert {e : Entry} {head free' segId idx : Nat} (h : Layout tagHash t free heads es)
    (hgrows : Grows t t') (horder : t'.idxOrder = t.idxOrder)
    (hframe : ∀ id, (∃ head', t.headSegOf id = some head' ∧ head' ≠ head) →
      t'.segment id = t.segment id)
    (hitem : IsItemAt t' head e.tag (suffixesFor es e.tag ++ [e.lsn % 2 ^ 32]) segId idx)
    (hfree : free' ≤ memTblSegNum) (hcount : heads'.length < free')
    (hunused : ∀ id, free' ≤ id → t'.segment id = .free) (htags : (heads'.map (·.2)).Nodup)
    (hchains : ∀ key, HashChain t' (t'.hash key)
      ((heads'.filter (hashPage tagHash ·.2 = key)).map (·.1)))
    (hmem : (head, e.tag) ∈ heads') (hsub : ∀ h ∈ heads, h ∈ heads')
    (hothers : ∀ h ∈ heads', h ≠ (head, e.tag) → h ∈ heads ∧ h.1 ≠ head)
    (hupper : e.lsn >>> 32 = t.prefixLsn) :
    ∃ t'', t'.addOrder segId idx = some t'' ∧ Layout tagHash t'' free' heads' (es ++ [e]) ∧
      t'' = { t' with idxOrder := t'.idxOrder ++ [Table.orderCode segId idx] } := by
  have hupper' : e.lsn >>> 32 = t'.prefixLsn := hupper.trans hgrows.prefixLsn.symm
  have hseg : segId < free' := by
    obtain ⟨item, chunks, rfl, -, -, -, hchain, -, rfl, -⟩ := hitem
    by_contra hge
    have hnone := hunused _ (Nat.le_of_not_lt hge)
    have htail := hchain.headSegOf_tail
    rw [Table.headSegOf, hnone] at htail
    split at htail <;> simp at htail
  have hseg' : segId < memTblSegNum := lt_of_lt_of_le hseg hfree
  obtain ⟨hidx, prev, hlast⟩ := hitem.orderLsnInfo hseg' hupper'
  refine ⟨_, by rw [Table.addOrder, if_pos ⟨hseg', hidx⟩], ?_, rfl⟩
  exact
    { free_le := hfree
      count := hcount
      unused := hunused
      tags := htags
      chains := by
        intro key
        refine HashChain.grows ?_ (hchains key)
        exact .of_segment_eq rfl rfl
      items := by
        intro h' hh'
        by_cases heq : h' = (head, e.tag)
        · subst heq
          rw [suffixesFor_append_self]
          exact hitem.isItem.frame fun _ _ => rfl
        · obtain ⟨hold, hne⟩ := hothers h' hh' heq
          have htag : e.tag ≠ h'.2 := by
            intro htag
            exact heq (inj_on_of_nodup_map htags hh' hmem htag.symm)
          rw [suffixesFor_append_of_ne es htag]
          exact (h.items h' hold).frame fun id hid => hframe id ⟨h'.1, hid, hne⟩
      covered := by
        refine forall_mem_append.mpr ⟨fun e' he' => ?_, forall_mem_singleton.mpr ⟨head, hmem⟩⟩
        exact (h.covered e' he').imp fun _ => hsub _
      order := by
        refine rel_append ?_ (.cons ⟨prev, hlast⟩ .nil)
        rw [horder]
        exact h.order.imp fun code e' ⟨prev', hprev'⟩ => hgrows.orderLsnInfo hprev'
      upper := forall_mem_append.mpr ⟨fun e' he' => (h.upper e' he').trans hgrows.prefixLsn.symm,
        forall_mem_singleton.mpr hupper'⟩ }

end Layout

/-! ## The three ways to insert an LSN -/

/-- The tables agree on everything beside their segments, hash slots and order. -/
structure SameInfo (t t' : Table) : Prop where
  idxTableId : t'.idxTableId = t.idxTableId
  minLsn : t'.minLsn = t.minLsn
  maxLsn : t'.maxLsn = t.maxLsn
  prefixLsn : t'.prefixLsn = t.prefixLsn

theorem insertLsnInfo_of_forall {lsn : Nat} (h : ∀ s ∈ suffixLsn, s < lsn % 2 ^ 32) :
    Table.insertLsnInfo suffixLsn lsn = some (suffixLsn ++ [lsn % 2 ^ 32]) := by
  rw [Table.insertLsnInfo, if_pos]
  cases hlast : suffixLsn.getLast? with
  | none => rfl
  | some s => exact decide_eq_true (h s (mem_of_getLast? hlast))

theorem mem_suffixes_of_mem_tailSuffixes {item : ItemHead} {chunks : List Chunk} {s : Nat}
    (h : s ∈ tailSuffixes item chunks) : s ∈ suffixes item chunks := by
  cases chunks with
  | nil => exact h
  | cons c older => exact mem_append_right _ h

/-- Linking a new segment behind the full tail of an item. -/
theorem Chain.linkTail {item : ItemHead} {chunks : List Chunk} {segId : Nat}
    (h : Chain t item invalidSeg chunks) (htail : item.tailSeg = tailOf item.headSeg chunks)
    (hfull : t.memSegFull item.headSeg = some true) (hlt : tailOf item.headSeg chunks < segId) :
    ∃ t' item', t.linkTail item.headSeg item segId = some t' ∧ Grows t t' ∧
      (∀ id, t.headSegOf id ≠ some item.headSeg → t'.segment id = t.segment id) ∧
      SameInfo t t' ∧ t'.idxOrder = t.idxOrder ∧ t'.hash = t.hash ∧
      item'.headSeg = item.headSeg ∧ item'.tag = item.tag ∧
      item'.prevPageLsn = item.prevPageLsn ∧ item'.tailSeg = segId ∧
      suffixes item' chunks = suffixes item chunks ∧ Chain t' item' segId chunks := by
  have hown := h.headSegOf_tail
  rw [Table.memSegFull, h.itemHead, bind_some] at hfull
  cases chunks with
  | nil =>
    simp only [tailOf] at htail hown hlt
    rw [if_pos htail] at hfull
    let item' : ItemHead := { item with nextSeg := segId, tailSeg := segId }
    refine ⟨t.setSegment item.headSeg (.itemHead item'), item',
      by rw [Table.linkTail, if_pos htail], ?_, ?_, ⟨rfl, rfl, rfl, rfl⟩, rfl, rfl, rfl, rfl, rfl,
      rfl, rfl, h.1, t.setSegment_segment_self _ _, rfl, h.2.2.2.nonempty, h.2.2.2.le, ?_⟩
    · refine .setSegment_head h.itemHead rfl rfl rfl rfl ?_
      exact prefix_rfl
    · intro id hid
      exact t.setSegment_segment_of_ne _ fun heq => hid (heq ▸ hown)
    · intro _
      simpa using hfull
  | cons c older =>
    simp only [tailOf] at htail hown hlt
    have hne : item.tailSeg ≠ item.headSeg := htail ▸ h.headSeg_ne.symm
    rw [if_neg hne, htail, h.itemSeg] at hfull
    let seg' : ItemSeg :=
      { headSeg := item.headSeg, nextSeg := segId, prevSeg := tailOf item.headSeg older,
        suffixLsn := c.suffixLsn }
    let item' : ItemHead := { item with tailSeg := segId }
    let t₁ := t.setSegment c.id (.itemSeg seg')
    have hitem₁ : t₁.itemHead item.headSeg = some item := by
      refine Table.itemHead_eq_some.mpr ⟨h.head.1, ?_⟩
      rw [t.setSegment_segment_of_ne _ h.headSeg_ne]
      exact h.head.2
    have hkeep : ∀ id, id ≠ c.id → id ≠ item.headSeg →
        (t₁.setSegment item.headSeg (.itemHead item')).segment id = t.segment id := by
      intro id hid hid'
      rw [t₁.setSegment_segment_of_ne _ hid', t.setSegment_segment_of_ne _ hid]
    refine ⟨t₁.setSegment item.headSeg (.itemHead item'), item', ?_, ?_, ?_,
      ⟨rfl, rfl, rfl, rfl⟩, rfl, rfl, rfl, rfl, rfl, rfl, suffixes_congr _ rfl, h.1, ?_,
      ⟨h.2.2.1.nonempty, h.2.2.1.le, ?_⟩, ?_⟩
    · rw [Table.linkTail, if_neg hne, htail, h.itemSeg, map_some]
    · have hseg : Grows t t₁ := by
        refine .setSegment_seg h.itemSeg rfl rfl ?_
        exact prefix_rfl
      refine hseg.trans (.setSegment_head hitem₁ rfl rfl rfl rfl ?_)
      exact prefix_rfl
    · intro id hid
      have hitem := Table.headSegOf_eq_some.mpr (.inl ⟨item, h.itemHead, rfl⟩)
      exact hkeep id (fun heq => hid (heq ▸ hown)) (fun heq => hid (heq ▸ hitem))
    · rw [t₁.setSegment_segment_of_ne _ h.headSeg_ne.symm]
      exact t.setSegment_segment_self _ _
    · intro _
      simpa using hfull
    · refine h.2.2.2.transport rfl rfl rfl (t₁.setSegment_segment_self _ _)
        fun id hid hle _ => hkeep id ?_ hid
      have := h.1
      omega

namespace Layout

variable {tagHash : BufferTag → Nat} {t t' : Table} {free : Nat}
  {heads heads' : List (Nat × BufferTag)} {es : List Entry} {e : Entry} {head : Nat}

section

variable (h : Layout tagHash t free heads es)
include h

/-- A newer LSN of a tag has a larger suffix than the stored ones. -/
theorem suffixesFor_lt
    (hlt : ∀ e' ∈ es, e'.tag = e.tag → e'.lsn < e.lsn) (hupper : e.lsn >>> 32 = t.prefixLsn)
    {s : Nat} (hs : s ∈ suffixesFor es e.tag) : s < e.lsn % 2 ^ 32 := by
  obtain ⟨e', he', rfl⟩ := mem_map.mp hs
  obtain ⟨he', htag⟩ := mem_filter.mp he'
  exact Table.suffix_lt_suffix ((h.upper e' he').trans hupper.symm)
    (hlt e' he' (of_decide_eq_true htag))

/-- What a change of the segments of one item leaves of the hash chains. -/
theorem chains_of_grows (hgrows : Grows t t')
    (hhash : t'.hash = t.hash) (key : Nat) : HashChain t' (t'.hash key)
      ((heads.filter (hashPage tagHash ·.2 = key)).map (·.1)) := by
  rw [hhash]
  exact (h.chains key).grows hgrows

theorem ne_head_of_ne (hmem : (head, e.tag) ∈ heads) :
    ∀ h' ∈ heads, h' ≠ (head, e.tag) → h' ∈ heads ∧ h'.1 ≠ head := by
  rintro ⟨head', tag'⟩ hh' hne
  refine ⟨hh', fun heq => hne ?_⟩
  simp only at heq
  subst heq
  rw [h.tag_unique hh' hmem]

end

/-- Writing a segment of one item leaves the segments of the others. -/
theorem setSegment_frame {id : Nat} {seg : TblSeg} (hown : t.headSegOf id = some head) (id' : Nat)
    (hother : ∃ head', t.headSegOf id' = some head' ∧ head' ≠ head) :
    (t.setSegment id seg).segment id' = t.segment id' := by
  refine t.setSegment_segment_of_ne _ ?_
  rintro rfl
  obtain ⟨head', hown', hne⟩ := hother
  exact hne (some.inj (hown'.symm.trans hown))

section

variable (h : Layout tagHash t free heads es)
include h

theorem headSegOf_lt {id : Nat} (hown : t.headSegOf id = some head) : id < free := by
  by_contra hge
  rw [Table.headSegOf, h.unused _ (Nat.le_of_not_lt hge)] at hown
  split at hown <;> simp at hown

theorem setSegment_unused {id : Nat} {seg : TblSeg}
    (hown : t.headSegOf id = some head) (id' : Nat) (hid' : free ≤ id') :
    (t.setSegment id seg).segment id' = .free := by
  have := h.headSegOf_lt hown
  rw [t.setSegment_segment_of_ne _ (by omega)]
  exact h.unused id' hid'

/-- `log_index_append_lsn` with its order entry, for an item whose last segment is not full. -/
theorem appendLsn (hmem : (head, e.tag) ∈ heads) (hfull : t.memSegFull head = some false)
    (hlt : ∀ e' ∈ es, e'.tag = e.tag → e'.lsn < e.lsn) (hupper : e.lsn >>> 32 = t.prefixLsn) :
    ∃ t' idx item t'', t.appendLsn head e.lsn = some (t', idx) ∧ t'.itemHead head = some item ∧
      t'.addOrder item.tailSeg idx = some t'' ∧ Layout tagHash t'' free heads (es ++ [e]) ∧
      SameInfo t t'' := by
  obtain ⟨item, chunks, rfl, htag, hprev, htail, hchain, hsuffix⟩ := h.items _ hmem
  have hsmall : ∀ s ∈ tailSuffixes item chunks, s < e.lsn % 2 ^ 32 := fun s hs =>
    h.suffixesFor_lt hlt hupper (hsuffix ▸ mem_suffixes_of_mem_tailSuffixes hs)
  have hitem := hchain.itemHead
  have hown := hchain.headSegOf_tail
  cases chunks with
  | nil =>
    simp only [tailOf] at htail hown
    have hnum : item.suffixLsn.length < itemHeadLsnNum := by
      rw [Table.memSegFull, hitem, bind_some, if_pos htail] at hfull
      have := hchain.2.2.2.le
      simp only [some.injEq, beq_eq_false_iff_ne] at hfull
      omega
    let item' : ItemHead := { item with suffixLsn := item.suffixLsn ++ [e.lsn % 2 ^ 32] }
    have hgrows : Grows t (t.setSegment item.headSeg (.itemHead item')) :=
      .setSegment_head hitem rfl rfl rfl rfl (prefix_append _ _)
    have hitem' : (t.setSegment item.headSeg (.itemHead item')).itemHead item.headSeg =
        some item' :=
      Table.itemHead_eq_some.mpr ⟨hchain.1, t.setSegment_segment_self _ _⟩
    have hat : IsItemAt (t.setSegment item.headSeg (.itemHead item')) item.headSeg e.tag
        (suffixesFor es e.tag ++ [e.lsn % 2 ^ 32]) item.headSeg item.suffixLsn.length := by
      refine ⟨item', [], rfl, htag, hprev, htail, ⟨hchain.1, ?_, hchain.2.2.1, ?_⟩, ?_, rfl, ?_⟩
      · exact t.setSegment_segment_self _ _
      · refine ⟨by simp [item'], ?_, fun hne => absurd rfl hne⟩
        rwa [length_append]
      · rw [← hsuffix]
        rfl
      · simp [tailSuffixes, item']
    obtain ⟨t'', hadd, hlayout, rfl⟩ := h.insert hgrows rfl (setSegment_frame hown) hat h.free_le
      h.count (h.setSegment_unused hown) h.tags (h.chains_of_grows hgrows rfl) hmem (fun _ => id)
      (h.ne_head_of_ne hmem) hupper
    refine ⟨_, item.suffixLsn.length, item', _, ?_, hitem', ?_, hlayout, ⟨rfl, rfl, rfl, rfl⟩⟩
    · rw [Table.appendLsn, hitem, bind_some, if_pos htail, if_pos hnum,
        show Table.insertLsnInfo item.suffixLsn e.lsn = _ from insertLsnInfo_of_forall hsmall,
        map_some]
    · rwa [show item'.tailSeg = item.headSeg from htail]
  | cons c older =>
    simp only [tailOf] at htail hown
    have hseg := hchain.itemSeg
    have hne : item.tailSeg ≠ item.headSeg := htail ▸ hchain.headSeg_ne.symm
    have hnum : c.suffixLsn.length < itemSegLsnNum := by
      rw [Table.memSegFull, hitem, bind_some, if_neg hne, htail, hseg,
        map_some] at hfull
      have := hchain.2.2.1.le
      simp only [some.injEq, beq_eq_false_iff_ne] at hfull
      omega
    let c' : Chunk := { c with suffixLsn := c.suffixLsn ++ [e.lsn % 2 ^ 32] }
    let seg' : ItemSeg :=
      { headSeg := item.headSeg, nextSeg := invalidSeg, prevSeg := tailOf item.headSeg older,
        suffixLsn := c'.suffixLsn }
    have hgrows : Grows t (t.setSegment c.id (.itemSeg seg')) :=
      .setSegment_seg hseg rfl rfl (prefix_append _ _)
    have hkeep : ∀ id, id ≠ c.id → (t.setSegment c.id (.itemSeg seg')).segment id =
        t.segment id := fun id hid => t.setSegment_segment_of_ne _ hid
    have hitem' : (t.setSegment c.id (.itemSeg seg')).itemHead item.headSeg = some item :=
      Table.itemHead_eq_some.mpr ⟨hchain.head.1, (hkeep _ hchain.headSeg_ne).trans hchain.head.2⟩
    have hat : IsItemAt (t.setSegment c.id (.itemSeg seg')) item.headSeg e.tag
        (suffixesFor es e.tag ++ [e.lsn % 2 ^ 32]) c.id c.suffixLsn.length := by
      refine ⟨item, c' :: older, rfl, htag, hprev, htail, ⟨hchain.1, ?_, ?_, ?_⟩, ?_, rfl, ?_⟩
      · exact t.setSegment_segment_self _ _
      · refine ⟨by simp [c'], ?_, fun hne => absurd rfl hne⟩
        rwa [length_append]
      · refine hchain.2.2.2.transport rfl rfl rfl ?_ fun id _ hle _ => hkeep id ?_
        · exact (hkeep _ hchain.headSeg_ne).trans hchain.head.2
        · have := hchain.1
          omega
      · rw [← hsuffix]
        simp [suffixes, c']
      · simp [tailSuffixes, c']
    obtain ⟨t'', hadd, hlayout, rfl⟩ := h.insert hgrows rfl (setSegment_frame hown) hat h.free_le
      h.count (h.setSegment_unused hown) h.tags (h.chains_of_grows hgrows rfl) hmem (fun _ => id)
      (h.ne_head_of_ne hmem) hupper
    refine ⟨_, c.suffixLsn.length, item, _, ?_, hitem', ?_, hlayout, ⟨rfl, rfl, rfl, rfl⟩⟩
    · rw [Table.appendLsn, hitem, bind_some, if_neg hne, htail, hseg, bind_some,
        if_pos hnum,
        show Table.insertLsnInfo c.suffixLsn e.lsn = _ from insertLsnInfo_of_forall hsmall,
        map_some]
    · rwa [htail]

/-- The segments of an item lie below the free ones. -/
theorem tail_lt {item : ItemHead} {chunks : List Chunk} {next : Nat}
    (hchain : Chain t item next chunks) :
    tailOf item.headSeg chunks < free :=
  h.headSegOf_lt hchain.headSegOf_tail

/-- `log_index_insert_new_seg` with its order entry, for an item whose last segment is full. -/
theorem insertNewSeg (hmem : (head, e.tag) ∈ heads)
    (hfull : t.memSegFull head = some true) (hfree : free < memTblSegNum)
    (hupper : e.lsn >>> 32 = t.prefixLsn) :
    ∃ t' t'', t.insertNewSeg head free e.lsn = some t' ∧ t'.addOrder free 0 = some t'' ∧
      Layout tagHash t'' (free + 1) heads (es ++ [e]) ∧ SameInfo t t'' := by
  obtain ⟨item, chunks, rfl, htag, hprev, htail, hchain, hsuffix⟩ := h.items _ hmem
  have hnew := h.unused free le_rfl
  have hlt := h.tail_lt hchain
  obtain ⟨t₁, item', hlink, hgrows, hframe, hinfo, horder, hhash, e₁, e₂, e₃, e₄, hsuffix',
    hchain'⟩ := hchain.linkTail htail hfull hlt
  have hnew₁ : t₁.segment free = .free := by
    rw [hframe free (by rw [Table.headSegOf, hnew]; split <;> simp), hnew]
  let seg : ItemSeg :=
    { headSeg := item.headSeg, nextSeg := invalidSeg, prevSeg := item.tailSeg,
      suffixLsn := [e.lsn % 2 ^ 32] }
  have hgrows' : Grows t (t₁.setSegment free (.itemSeg seg)) :=
    hgrows.trans (.setSegment_free hnew₁ _)
  have hkeep : ∀ id, id ≠ free → (t₁.setSegment free (.itemSeg seg)).segment id = t₁.segment id :=
    fun id hid => t₁.setSegment_segment_of_ne _ hid
  have hat : IsItemAt (t₁.setSegment free (.itemSeg seg)) item.headSeg e.tag
      (suffixesFor es e.tag ++ [e.lsn % 2 ^ 32]) free 0 := by
    refine ⟨item', ⟨free, [e.lsn % 2 ^ 32]⟩ :: chunks, e₁, e₂.trans htag, e₃.trans hprev, e₄,
      ⟨?_, ?_, ⟨by simp, by simp [itemSegLsnNum], fun hne => absurd rfl hne⟩, ?_⟩, ?_, rfl, rfl⟩
    · rwa [e₁]
    · rw [t₁.setSegment_segment_self, e₁, ← htail]
    · refine hchain'.transport rfl rfl rfl ?_ fun id _ hle _ => hkeep id ?_
      · rw [hkeep _ ?_, hchain'.head.2]
        have := hchain.headSeg_le_tail
        omega
      · rw [e₁] at hle
        omega
    · rw [suffixes, hsuffix', hsuffix]
  have hframe' : ∀ id, (∃ head', t.headSegOf id = some head' ∧ head' ≠ item.headSeg) →
      (t₁.setSegment free (.itemSeg seg)).segment id = t.segment id := by
    rintro id ⟨head', hown, hne⟩
    have hid := h.headSegOf_lt hown
    rw [hkeep id (by omega), hframe id (by simpa [hown] using hne)]
  have hunused : ∀ id, free + 1 ≤ id →
      (t₁.setSegment free (.itemSeg seg)).segment id = .free := by
    intro id hid
    have hfreeId := h.unused id (by omega)
    rw [hkeep id (by omega), hframe id (by rw [Table.headSegOf, hfreeId]; split <;> simp), hfreeId]
  obtain ⟨t'', hadd, hlayout, rfl⟩ := h.insert hgrows' horder hframe' hat hfree
    (Nat.lt_succ_of_lt h.count) hunused h.tags (h.chains_of_grows hgrows' hhash) hmem (fun _ => id)
    (h.ne_head_of_ne hmem) hupper
  refine ⟨_, _, ?_, hadd, hlayout, ?_⟩
  · rw [Table.insertNewSeg, hchain.itemHead, bind_some, hlink, map_some]
  · exact { hinfo with }

/-- `log_index_insert_new_item` with its order entry, for a tag without an item. -/
theorem insertNewItem (hnone : ∀ head, (head, e.tag) ∉ heads)
    (hfree : free < memTblSegNum) (hupper : e.lsn >>> 32 = t.prefixLsn) :
    ∃ t'', (t.insertNewItem ⟨e, invalidLsn⟩ (hashPage tagHash e.tag) free).addOrder free 0 =
        some t'' ∧
      Layout tagHash t'' (free + 1) ((free, e.tag) :: heads) (es ++ [e]) ∧ SameInfo t t'' := by
  have hpos : 0 < free := Nat.zero_lt_of_lt h.count
  have hnew := h.unused free le_rfl
  have hes : suffixesFor es e.tag = [] := by
    rw [suffixesFor, map_eq_nil_iff, filter_eq_nil_iff]
    intro e' he' htag
    obtain ⟨head, hhead⟩ := h.covered e' he'
    exact hnone head (of_decide_eq_true htag ▸ hhead)
  let item : ItemHead :=
    { headSeg := free, nextItem := t.hash (hashPage tagHash e.tag), nextSeg := invalidSeg,
      tailSeg := free, tag := e.tag, prevPageLsn := invalidLsn, suffixLsn := [e.lsn % 2 ^ 32] }
  let t' := t.insertNewItem ⟨e, invalidLsn⟩ (hashPage tagHash e.tag) free
  have hself : t'.segment free = .itemHead item := by
    simp [t', Table.insertNewItem, item]
  have hkeep : ∀ id, id ≠ free → t'.segment id = t.segment id := fun id hid =>
    t.setSegment_segment_of_ne _ hid
  have hgrows : Grows t t' :=
    (Grows.setSegment_free hnew (.itemHead item)).trans (.of_segment_eq rfl rfl)
  have hat : IsItemAt t' free e.tag (suffixesFor es e.tag ++ [e.lsn % 2 ^ 32]) free 0 := by
    refine ⟨item, [], rfl, rfl, rfl, rfl, ⟨?_, hself, rfl, ?_⟩, ?_, rfl, rfl⟩
    · exact Nat.ne_of_gt hpos
    · exact ⟨by simp [item], by simp [item, itemHeadLsnNum], fun hne => absurd rfl hne⟩
    · rw [hes]
      rfl
  have hframe : ∀ id, (∃ head', t.headSegOf id = some head' ∧ head' ≠ free) →
      t'.segment id = t.segment id := by
    rintro id ⟨head', hown, -⟩
    exact hkeep id (ne_of_lt (h.headSegOf_lt hown))
  have hunused : ∀ id, free + 1 ≤ id → t'.segment id = .free := by
    intro id hid
    rw [hkeep id (by omega)]
    exact h.unused id (by omega)
  have htags : (((free, e.tag) :: heads).map (·.2)).Nodup := by
    refine nodup_cons.mpr ⟨fun hmem => ?_, h.tags⟩
    obtain ⟨⟨head, tag⟩, hhead, rfl⟩ := mem_map.mp hmem
    exact hnone head hhead
  have hchains : ∀ key, HashChain t' (t'.hash key)
      ((((free, e.tag) :: heads).filter (hashPage tagHash ·.2 = key)).map (·.1)) := by
    intro key
    by_cases hkey : hashPage tagHash e.tag = key
    · subst hkey
      have hslot : t'.hash (hashPage tagHash e.tag) = free := by
        simp [t', Table.insertNewItem]
      rw [hslot, filter_cons_of_pos (by simp)]
      refine ⟨rfl, item, Table.itemHead_eq_some.mpr ⟨Nat.ne_of_gt hpos, hself⟩, ?_⟩
      exact (h.chains _).grows hgrows
    · have hslot : t'.hash key = t.hash key := by
        simp [t', Table.insertNewItem, Ne.symm hkey]
      rw [hslot, filter_cons_of_neg (by simpa using hkey)]
      exact (h.chains _).grows hgrows
  have hothers : ∀ h' ∈ (free, e.tag) :: heads, h' ≠ (free, e.tag) → h' ∈ heads ∧ h'.1 ≠ free := by
    intro h' hh' hne
    rcases mem_cons.mp hh' with rfl | hh'
    · exact absurd rfl hne
    · exact ⟨hh', ne_of_lt (h.head_ne hh').2⟩
  obtain ⟨t'', hadd, hlayout, rfl⟩ := h.insert hgrows rfl hframe hat hfree
    (show ((free, e.tag) :: heads).length < free + 1 from Nat.succ_lt_succ h.count) hunused htags
    hchains mem_cons_self (fun _ => mem_cons_of_mem _) hothers hupper
  exact ⟨_, hadd, hlayout, ⟨rfl, rfl, rfl, rfl⟩⟩

end

end Layout

end Polar.Logindex
