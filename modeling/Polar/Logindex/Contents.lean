import Polar.Logindex.Layout

/-!
# Reading a logindex table

`Stores` says which entries a table holds, with its id and its LSN range. From it follow the
results of the table's readers: the search for a page tag, the order array and the bloom data.
-/

namespace Polar.Logindex

open List

/-- LSNs never decrease from entry to entry, and the LSNs of one page strictly increase. -/
def Ordered (es : List Entry) : Prop :=
  es.Pairwise fun a b => a.lsn ≤ b.lsn ∧ (a.tag = b.tag → a.lsn < b.lsn)

/-- The least LSN of entries in order. -/
def firstLsn (es : List Entry) : Nat := (es.head?.map (·.lsn)).getD uint64Max

/-- The greatest LSN of entries in order. -/
def lastLsn (es : List Entry) : Nat := (es.getLast?.map (·.lsn)).getD invalidLsn

/-- The LSNs of a page. -/
def lsnsFor (es : List Entry) (tag : BufferTag) : List Nat :=
  (es.filter (·.tag = tag)).map (·.lsn)

theorem lsnsFor_append (es es' : List Entry) (tag : BufferTag) :
    lsnsFor (es ++ es') tag = lsnsFor es tag ++ lsnsFor es' tag := by
  rw [lsnsFor, filter_append, map_append]
  rfl

variable {es : List Entry}

/-- The LSNs of a page strictly increase. -/
theorem Ordered.lsnsFor (h : Ordered es) (tag : BufferTag) : (lsnsFor es tag).Pairwise (· < ·) := by
  rw [Logindex.lsnsFor, pairwise_map]
  refine (h.filter _).imp_of_mem fun {e e'} he he' hlt => hlt.2 ?_
  rw [of_decide_eq_true (mem_filter.mp he).2, of_decide_eq_true (mem_filter.mp he').2]

theorem Ordered.firstLsn_le (h : Ordered es) {e : Entry} (he : e ∈ es) : firstLsn es ≤ e.lsn := by
  cases es with
  | nil => simp at he
  | cons e₀ es =>
    rcases mem_cons.mp he with rfl | he
    · exact le_rfl
    · exact ((pairwise_cons.mp h).1 e he).1

theorem Ordered.le_lastLsn (h : Ordered es) {e : Entry} (he : e ∈ es) : e.lsn ≤ lastLsn es := by
  rcases eq_nil_or_concat es with rfl | ⟨init, last, rfl⟩
  · simp at he
  · simp only [lastLsn, concat_eq_append, List.getLast?_concat, Option.map_some,
      Option.getD_some]
    rw [concat_eq_append] at h he
    rcases mem_append.mp he with he | he
    · exact ((pairwise_append.mp h).2.2 e he last mem_cons_self).1
    · rw [mem_singleton.mp he]

/-- Tables hold the entries `es`, with the first free segment `free`. -/
structure Stores (tagHash : BufferTag → Nat) (t : Table) (free tid : Nat) (es : List Entry) :
    Prop where
  layout : ∃ heads, Layout tagHash t free heads es
  idxTableId : t.idxTableId = tid
  minLsn : t.minLsn = firstLsn es
  maxLsn : t.maxLsn = lastLsn es

namespace Stores

variable {tagHash : BufferTag → Nat} {t : Table} {free tid : Nat} {es : List Entry}

/-! ## The order array -/

theorem lastOrder (h : Stores tagHash t free tid es) : t.lastOrder = es.length := by
  obtain ⟨heads, hlayout⟩ := h.layout
  exact hlayout.order.length_eq

theorem getOrderLsn (h : Stores tagHash t free tid es) {i : Nat} {e : Entry}
    (hi : es[i]? = some e) : ∃ prev, t.getOrderLsn i = some (some ⟨e, prev⟩) := by
  obtain ⟨heads, hlayout⟩ := h.layout
  obtain ⟨hlt, rfl⟩ := List.getElem?_eq_some_iff.mp hi
  have hlt' : i < t.idxOrder.length := by
    rwa [hlayout.order.length_eq]
  obtain ⟨prev, hprev⟩ := hlayout.order.get hlt' hlt
  refine ⟨prev, ?_⟩
  rw [Table.getOrderLsn, List.getElem?_eq_getElem hlt']
  simp only [get_eq_getElem] at hprev
  simp only [hprev, Option.map_some]

/-! ## The search for a page -/

/-- The item of a page that a table holds LSNs of. -/
structure Found (t : Table) (item : ItemHead) (chunks : List Chunk) (lsns : List Nat) : Prop where
  chain : Chain t item invalidSeg chunks
  tailSeg : item.tailSeg = tailOf item.headSeg chunks
  short : chunks.length < memTblSegNum
  prevPageLsn : item.prevPageLsn = invalidLsn
  lsns : (suffixes item chunks).map t.combineLsn = lsns

theorem found_of_isItem {heads : List (Nat × BufferTag)} {head : Nat} {tag : BufferTag}
    (hlayout : Layout tagHash t free heads es) (hmem : (head, tag) ∈ heads) :
    ∃ item chunks, item.headSeg = head ∧ item.tag = tag ∧ t.itemHead head = some item ∧
      Found t item chunks (lsnsFor es tag) := by
  obtain ⟨item, chunks, rfl, rfl, hprev, htail, hchain, hsuffix⟩ := hlayout.items _ hmem
  have hshort : chunks.length < memTblSegNum :=
    calc chunks.length < tailOf item.headSeg chunks := hchain.length_lt_tail
      _ < free := hlayout.tail_lt hchain
      _ ≤ memTblSegNum := hlayout.free_le
  refine ⟨item, chunks, rfl, rfl, hchain.itemHead, ⟨hchain, htail, hshort, hprev, ?_⟩⟩
  rw [hsuffix, suffixesFor, map_map]
  refine map_congr_left fun e he => ?_
  exact t.combineLsn_mod (hlayout.upper e (mem_filter.mp he).1)

/-- `log_index_tbl_find` finds the item exactly of the pages with LSNs in the table. -/
theorem tblFind (h : Stores tagHash t free tid es) (tag : BufferTag) :
    (t.tblFind tag (hashPage tagHash tag) = none ∧ lsnsFor es tag = []) ∨
      ∃ item chunks, t.tblFind tag (hashPage tagHash tag) = some item ∧
        Found t item chunks (lsnsFor es tag) := by
  obtain ⟨heads, hlayout⟩ := h.layout
  rcases hlayout.existsPage tag with hmem | ⟨hend, hnone⟩
  · obtain ⟨item, chunks, -, -, hitem, hfound⟩ := found_of_isItem hlayout hmem
    exact .inr ⟨item, chunks, hitem, hfound⟩
  · refine .inl ⟨by rw [Table.tblFind, hend, Table.itemHead, if_pos rfl], ?_⟩
    rw [lsnsFor, map_eq_nil_iff, filter_eq_nil_iff]
    intro e he htag
    obtain ⟨head, hhead⟩ := hlayout.covered e he
    exact hnone head (of_decide_eq_true htag ▸ hhead)

namespace Found

variable {item : ItemHead} {chunks : List Chunk} {lsns : List Nat}

variable (h : Found t item chunks lsns)
include h

theorem itemMinLsn : t.itemMinLsn item = lsns.head? := by
  have hhead : (suffixes item chunks).head? = item.suffixLsn.head? := by
    have hchain := h.chain
    clear h
    generalize invalidSeg = next at hchain
    induction chunks generalizing next with
    | nil => rfl
    | cons c older ih =>
      rw [suffixes, List.head?_append_of_ne_nil _ hchain.2.2.2.suffixes_ne_nil]
      exact ih _ hchain.2.2.2
  rw [Table.itemMinLsn, ← hhead, ← h.lsns, List.head?_map]

theorem itemMaxLsn : t.itemMaxLsn item = lsns.getLast? := by
  rw [← h.lsns, List.getLast?_map, h.chain.suffixes_getLast?, Table.itemMaxLsn, h.tailSeg]
  have hchain := h.chain
  cases chunks with
  | nil => rw [tailOf, if_pos rfl, tailSuffixes]
  | cons c older =>
    rw [tailOf, if_neg hchain.headSeg_ne, hchain.itemSeg, Option.bind_some, tailSuffixes]

theorem ne_nil : lsns ≠ [] := by
  rw [← h.lsns]
  simpa using h.chain.suffixes_ne_nil

end Found

end Stores

/-! ## The bloom data -/

variable {t : Table}

theorem HashChain.chainItems {fuel id : Nat} {heads : List Nat}
    (h : HashChain t id heads) (hfuel : heads.length ≤ fuel) (item : ItemHead) :
    item ∈ t.chainItems fuel id ↔ ∃ head ∈ heads, t.itemHead head = some item := by
  induction heads generalizing id fuel with
  | nil =>
    have hend : t.itemHead id = none := by
      rw [Table.itemHead, if_pos (show id = invalidSeg from h)]
    cases fuel <;> simp [Table.chainItems, hend]
  | cons head heads ih =>
    obtain ⟨rfl, item₀, hitem₀, hrest⟩ := h
    cases fuel with
    | zero => simp at hfuel
    | succ fuel =>
      have hrest' := ih hrest (Nat.le_of_succ_le_succ hfuel)
      simp only [Table.chainItems, hitem₀, mem_cons, hrest', exists_eq_or_imp,
        Option.some.injEq]
      rw [@eq_comm _ item]

/-- The item heads the bloom calculation visits are those of the table. -/
theorem Layout.mem_allItems {tagHash : BufferTag → Nat} {free : Nat}
    {heads : List (Nat × BufferTag)} (h : Layout tagHash t free heads es) (item : ItemHead) :
    item ∈ t.allItems ↔ ∃ hd ∈ heads, t.itemHead hd.1 = some item := by
  have hchain : ∀ key, item ∈ t.chainItems memTblSegNum (t.hash key) ↔
      ∃ hd ∈ heads, hashPage tagHash hd.2 = key ∧ t.itemHead hd.1 = some item := by
    intro key
    have hfuel : ((heads.filter (hashPage tagHash ·.2 = key)).map (·.1)).length ≤
        memTblSegNum := by
      rw [length_map]
      have := length_filter_le (hashPage tagHash ·.2 = key) heads
      have := h.count
      have := h.free_le
      omega
    rw [(h.chains key).chainItems hfuel]
    constructor
    · rintro ⟨head, hhead, hitem⟩
      obtain ⟨hd, hmem, rfl⟩ := mem_map.mp hhead
      obtain ⟨hmem, hkey⟩ := mem_filter.mp hmem
      exact ⟨hd, hmem, of_decide_eq_true hkey, hitem⟩
    · rintro ⟨hd, hmem, hkey, hitem⟩
      refine ⟨hd.1, mem_map.mpr ⟨hd, ?_, rfl⟩, hitem⟩
      exact mem_filter.mpr ⟨hmem, decide_eq_true hkey⟩
  simp only [Table.allItems, mem_flatMap, mem_range, hchain]
  constructor
  · rintro ⟨key, -, hd, hmem, -, hitem⟩
    exact ⟨hd, hmem, hitem⟩
  · rintro ⟨hd, hmem, hitem⟩
    exact ⟨_, Nat.mod_lt _ (by decide), hd, hmem, rfl, hitem⟩

/-- The bloom calculation over items whose LSNs lie in a range. -/
theorem foldlM_addItem {lo hi : Nat} (items : List ItemHead) (bloom : Bloom)
    (hitems : ∀ item ∈ items, ∃ a b, t.itemMinLsn item = some a ∧ t.itemMaxLsn item = some b ∧
      lo ≤ a ∧ b ≤ hi) :
    ∃ bloom', items.foldlM (Bloom.addItem t) bloom = some bloom' ∧
      bloom'.idxTableId = bloom.idxTableId ∧
      (∀ tag, tag ∈ bloom'.tags ↔ tag ∈ bloom.tags ∨ ∃ item ∈ items, item.tag = tag) ∧
      bloom.maxLsn ≤ bloom'.maxLsn ∧ bloom'.maxLsn ≤ max bloom.maxLsn hi ∧
      bloom'.minLsn ≤ bloom.minLsn ∧ min bloom.minLsn lo ≤ bloom'.minLsn ∧
      ∀ item ∈ items, ∀ a b, t.itemMinLsn item = some a → t.itemMaxLsn item = some b →
        bloom'.minLsn ≤ a ∧ b ≤ bloom'.maxLsn := by
  induction items generalizing bloom with
  | nil => exact ⟨bloom, rfl, rfl, by simp, by omega, by omega, by omega, by omega, by simp⟩
  | cons item items ih =>
    obtain ⟨a, b, ha, hb, hlo, hhi⟩ := hitems item mem_cons_self
    let bloom₁ : Bloom :=
      { bloom with maxLsn := max bloom.maxLsn b, minLsn := min bloom.minLsn a,
                   tags := item.tag :: bloom.tags }
    have hstep : Bloom.addItem t bloom item = some bloom₁ := by
      rw [Bloom.addItem, hb, Option.bind_some, ha, Option.map_some]
    obtain ⟨bloom', hfold, htid, htags, hmax, hmax', hmin, hmin', hall⟩ :=
      ih bloom₁ fun item' hitem' => hitems item' (mem_cons_of_mem _ hitem')
    simp only [bloom₁] at htid htags hmax hmax' hmin hmin'
    refine ⟨bloom', ?_, htid, ?_, by omega, by omega, by omega, by omega, ?_⟩
    · rwa [foldlM_cons, hstep]
    · intro tag
      rw [htags tag]
      simp only [mem_cons, exists_eq_or_imp]
      tauto
    · intro item' hitem' a' b' ha' hb'
      rcases mem_cons.mp hitem' with rfl | hitem'
      · obtain rfl : a = a' := Option.some.inj (ha.symm.trans ha')
        obtain rfl : b = b' := Option.some.inj (hb.symm.trans hb')
        constructor <;> omega
      · exact hall item' hitem' a' b' ha' hb'

theorem mem_lsnsFor {tag : BufferTag} {lsn : Nat} : lsn ∈ lsnsFor es tag ↔ ⟨tag, lsn⟩ ∈ es := by
  simp only [lsnsFor, mem_map, mem_filter, decide_eq_true_eq]
  constructor
  · rintro ⟨e, ⟨he, rfl⟩, rfl⟩
    exact he
  · intro he
    exact ⟨_, ⟨he, rfl⟩, rfl⟩

/-- What the bloom data of a table says of its entries. -/
structure BloomOf (bloom : Bloom) (tid : Nat) (es : List Entry) : Prop where
  idxTableId : bloom.idxTableId = tid
  minLsn : bloom.minLsn = firstLsn es
  maxLsn : bloom.maxLsn = lastLsn es
  tags : ∀ e ∈ es, e.tag ∈ bloom.tags

/-- `log_index_get_bloom_data` finds every page and the LSN range of the table. -/
theorem Stores.getBloomData {tagHash : BufferTag → Nat} {free tid : Nat}
    (h : Stores tagHash t free tid es) (hordered : Ordered es)
    (hmax : ∀ e ∈ es, e.lsn ≤ uint64Max) :
    ∃ bloom, t.getBloomData tid = some bloom ∧ BloomOf bloom tid es := by
  obtain ⟨heads, hlayout⟩ := h.layout
  have hitems : ∀ item ∈ t.allItems, ∃ a b, t.itemMinLsn item = some a ∧
      t.itemMaxLsn item = some b ∧ firstLsn es ≤ a ∧ b ≤ lastLsn es := by
    intro item hitem
    obtain ⟨⟨head, tag⟩, hmem, hitem⟩ := (hlayout.mem_allItems item).mp hitem
    obtain ⟨item', chunks, -, -, hitem', hfound⟩ := Stores.found_of_isItem hlayout hmem
    obtain rfl : item' = item := Option.some.inj (hitem'.symm.trans hitem)
    have hhead := List.head?_eq_some_head hfound.ne_nil
    have hlast := List.getLast?_eq_some_getLast hfound.ne_nil
    refine ⟨_, _, hfound.itemMinLsn.trans hhead, hfound.itemMaxLsn.trans hlast, ?_, ?_⟩
    · exact hordered.firstLsn_le (mem_lsnsFor.mp (mem_of_head? hhead))
    · exact hordered.le_lastLsn (mem_lsnsFor.mp (mem_of_getLast? hlast))
  have hitem : ∀ e ∈ es, ∃ item ∈ t.allItems, item.tag = e.tag ∧
      t.itemMinLsn item = (lsnsFor es e.tag).head? ∧
      t.itemMaxLsn item = (lsnsFor es e.tag).getLast? := by
    intro e he
    obtain ⟨head, hmem⟩ := hlayout.covered e he
    obtain ⟨item, chunks, -, htag, hitem, hfound⟩ := Stores.found_of_isItem hlayout hmem
    exact ⟨item, (hlayout.mem_allItems item).mpr ⟨_, hmem, hitem⟩, htag, hfound.itemMinLsn,
      hfound.itemMaxLsn⟩
  obtain ⟨bloom, hfold, htid, htags, -, hmaxLe, hminLe, hmin, hall⟩ :=
    foldlM_addItem t.allItems
      { idxTableId := tid, minLsn := uint64Max, maxLsn := invalidLsn, tags := [] } hitems
  refine ⟨bloom, hfold, htid, ?_, ?_, ?_⟩
  · cases es with
    | nil =>
      simp only [firstLsn, List.head?_nil, Option.map_none, Option.getD_none] at hmin hminLe ⊢
      omega
    | cons e es =>
      obtain ⟨item, hmem, -, hfirst, hlast⟩ := hitem e mem_cons_self
      obtain ⟨a, b, ha, hb, -⟩ := hitems item hmem
      have hlo : firstLsn (e :: es) = a := by
        rw [ha] at hfirst
        simpa [lsnsFor, firstLsn] using hfirst.symm
      have := (hall item hmem a b ha hb).1
      have := hmax e mem_cons_self
      have hself : firstLsn (e :: es) = e.lsn := rfl
      simp only at hmin
      omega
  · rcases eq_nil_or_concat es with rfl | ⟨init, e, rfl⟩
    · simp only [lastLsn, List.getLast?_nil, Option.map_none, Option.getD_none,
        invalidLsn] at hmaxLe ⊢
      omega
    · rw [concat_eq_append] at *
      obtain ⟨item, hmem, -, hfirst, hlast⟩ := hitem e (by simp)
      obtain ⟨a, b, ha, hb, -⟩ := hitems item hmem
      have hhi : lastLsn (init ++ [e]) = b := by
        rw [hb] at hlast
        simpa [lsnsFor, lastLsn] using hlast.symm
      have := (hall item hmem a b ha hb).2
      simp only [invalidLsn] at hmaxLe
      omega
  · intro e he
    obtain ⟨item, hmem, htag, -⟩ := hitem e he
    exact (htags _).mpr (.inr ⟨item, hmem, htag⟩)

end Polar.Logindex
