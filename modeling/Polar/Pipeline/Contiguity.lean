import Polar.Pipeline.RecentWritten

/-!
# Contiguity of the pipeline

Every link of a reserved record is still to be added, stored in its slot, or consumed. What is
stored lies in one lap of the array behind the ready position, so no slot is used twice, and what
is consumed has been copied. The page of the write position is in the file as a whole, so what it
holds behind the write position need not have been copied.
-/

namespace Polar.Pipeline.RecentWritten

open List Function

variable {c : Config} {start : Nat} {s t : State}

theorem Config.arraySize_pos (c : Config) : 0 < c.arraySize := Nat.two_pow_pos _

theorem Config.slot_eq_mod (c : Config) (pos : Nat) : c.slot pos = pos % c.arraySize :=
  Nat.and_two_pow_sub_one_eq_mod _ _

theorem Config.bytePos_endRecPtr (c : Config) (pos : Nat) :
    c.bytePos (bytePosToEndRecPtr c.pages pos) = pos :=
  (recPtrToBytePos_endRecPtr c.pages_pos pos).1

/-- Positions of one lap have different slots. -/
theorem Config.slot_inj {lo p q : Nat} (hp : lo ≤ p) (hp' : p < lo + c.arraySize) (hq : lo ≤ q)
    (hq' : q < lo + c.arraySize) (h : c.slot p = c.slot q) : p = q := by
  rw [c.slot_eq_mod, c.slot_eq_mod] at h
  exact Ring.mod_inj_of_window c.arraySize_pos hp hp' hq hq' h

/-- The byte position is in a piece that has been copied. -/
def CopiedAt (c : Config) (s : State) (pos : Nat) : Prop :=
  ∃ l ∈ s.copied, c.bytePos l.1 ≤ pos ∧ pos < c.bytePos l.2

theorem isCopied_iff {pos : Nat} : s.isCopied c pos = true ↔ CopiedAt c s pos := by
  simp [State.isCopied, CopiedAt]

theorem copiedAt_init (c : Config) (start pos : Nat) (h : pos < start) :
    CopiedAt c (State.init c start) pos := by
  refine ⟨_, mem_singleton_self _, ?_, ?_⟩
  · have hzero : c.bytePos (bytePosToRecPtr c.pages 0) = 0 :=
      (recPtrToBytePos_recPtr c.pages_pos 0).1
    rw [hzero]
    exact Nat.zero_le pos
  · rwa [c.bytePos_endRecPtr]

/-- The link is stored in its slot. -/
def Stored (c : Config) (s : State) (l : Link) : Prop :=
  s.slots (c.slot (c.bytePos l.1)) = c.bytePos l.2 - c.bytePos l.1 ∧
    c.bytePos l.1 < s.readyWritePosition + c.arraySize

/-- What every run keeps of the array and the WAL. -/
structure Inv (c : Config) (start : Nat) (s : State) : Prop where
  spans : Spans c.pages start s.history s.currBytePos
  ready_le : start ≤ s.readyWritePosition ∧ s.readyWritePosition ≤ s.tailPos ∧
    s.tailPos ≤ s.currBytePos
  oldPos : ∀ oldPos tailPos, s.advancer = .follow oldPos tailPos → oldPos = s.readyWritePosition
  nodup : s.pending.Nodup
  pending : ∀ l ∈ s.pending, l ∈ s.history ∧ s.tailPos ≤ c.bytePos l.1
  slot : ∀ i, s.slots i ≠ 0 → ∃ l ∈ s.history, l ∉ s.pending ∧ c.slot (c.bytePos l.1) = i ∧
    s.tailPos ≤ c.bytePos l.1 ∧ Stored c s l
  waiting : ∀ l ∈ s.history, s.tailPos ≤ c.bytePos l.1 → l ∈ s.pending ∨ Stored c s l
  tail : s.tailPos = s.currBytePos ∨ ∃ l ∈ s.history, c.bytePos l.1 = s.tailPos
  boundary : s.tailPos = start ∨ ∃ l ∈ s.history, c.bytePos l.2 = s.tailPos
  readyBoundary : s.readyWritePosition = start ∨
    ∃ l ∈ s.history, c.bytePos l.2 = s.readyWritePosition
  copied : ∀ l ∈ s.history, l ∉ s.pending → l ∈ s.copied
  head : ∀ r ∈ s.inserters, r.copied = true → ∀ l, r.links.head? = some l → l ∈ s.copied
  before : ∀ pos < start, CopiedAt c s pos
  fileCopied : ∀ pos, s.file pos = some true → CopiedAt c s pos
  written : ∀ pos, bytePosToRecPtr c.pages pos < s.logWriteResult → s.file pos = some true
  page : ∀ pos, s.file pos = some false →
    bytePosToRecPtr c.pages pos / xlogBlcksz * xlogBlcksz < s.logWriteResult

namespace Inv

theorem init (c : Config) (start : Nat) : Inv c start (State.init c start) where
  spans := rfl
  ready_le := ⟨le_refl _, le_refl _, le_refl _⟩
  oldPos := by simp [State.init]
  nodup := nodup_nil
  pending := by simp [State.init, State.pending]
  slot := by simp [State.init]
  waiting := by simp [State.init]
  tail := .inl rfl
  boundary := .inl rfl
  readyBoundary := .inl rfl
  copied := by simp [State.init]
  head := by simp [State.init]
  before := copiedAt_init c start
  fileCopied pos h := by
    by_cases hpos : pos < start
    · exact copiedAt_init c start pos hpos
    · simp [State.init, hpos] at h
  written pos hlt := if_pos (lt_of_recPtr_lt_endRecPtr c.pages_pos hlt)
  page pos h := by
    by_cases hpos : pos < start <;> simp [State.init] at h

/-- A stored link lies in the lap behind the ready position. -/
theorem eq_of_slot {l : Link} {p : Nat} (inv : Inv c start s) (hl : s.tailPos ≤ c.bytePos l.1)
    (hs : Stored c s l) (hp : s.tailPos ≤ p) (hp' : p < s.readyWritePosition + c.arraySize)
    (h : c.slot (c.bytePos l.1) = c.slot p) : c.bytePos l.1 = p :=
  Config.slot_inj (inv.ready_le.2.1.trans hl) hs.2 (inv.ready_le.2.1.trans hp) hp' h

theorem stored_ne_zero {l : Link} (inv : Inv c start s) (hl : l ∈ s.history) (hs : Stored c s l) :
    s.slots (c.slot (c.bytePos l.1)) ≠ 0 := by
  have := (inv.spans.mem hl).2.1
  rw [hs.1]
  exact Nat.sub_ne_zero_of_lt this

/-- A record is reserved. -/
theorem insert {isLogSwitch : Bool} {rdata : List Nat} (inv : Inv c start s)
    (hs : s.step c (.insert isLogSwitch rdata) = some t) : Inv c start t := by
  obtain ⟨r, hr, hs⟩ := Option.bind_eq_some_iff.mp hs
  cases hs
  obtain ⟨hspans, hle⟩ := copyXLogRecordToWAL_spans c.pages_pos hr
  generalize copyXLogRecordToWAL c.pages isLogSwitch rdata r.startPos r.endPos = links at *
  have hpending : State.pending { s with
      currBytePos := r.endBytePos, inserters := s.inserters ++ [⟨links, false⟩]
      history := s.history ++ links } = s.pending ++ links := by
    simp [State.pending]
  have hold : ∀ l ∈ s.history, c.bytePos l.1 < s.currBytePos := fun l hl => by
    have := inv.spans.mem hl
    exact this.2.1.trans_le this.2.2
  have hnew : ∀ l ∈ links, s.currBytePos ≤ c.bytePos l.1 := fun l hl => (hspans.mem hl).1
  have hnotnew : ∀ l ∈ s.history, l ∉ links := fun l hl hl' =>
    absurd (hnew l hl') (Nat.not_le.mpr (hold l hl))
  have hready := inv.ready_le
  refine { inv with
    spans := inv.spans.append hspans
    ready_le := ⟨hready.1, hready.2.1, hready.2.2.trans hle⟩
    nodup := ?_, pending := ?_, slot := ?_, waiting := ?_, tail := ?_, copied := ?_, head := ?_
    boundary := inv.boundary.imp_right fun ⟨l, hl, h⟩ => ⟨l, mem_append_left _ hl, h⟩
    readyBoundary := inv.readyBoundary.imp_right fun ⟨l, hl, h⟩ => ⟨l, mem_append_left _ hl, h⟩ }
  · rw [hpending]
    refine nodup_append.mpr ⟨inv.nodup, hspans.nodup, fun a ha b hb hab => ?_⟩
    subst hab
    exact hnotnew a (inv.pending a ha).1 hb
  · intro l hl
    rw [hpending] at hl
    obtain hl | hl := mem_append.mp hl
    · exact ⟨mem_append_left _ (inv.pending l hl).1, (inv.pending l hl).2⟩
    · exact ⟨mem_append_right _ hl, hready.2.2.trans (hnew l hl)⟩
  · intro i hi
    obtain ⟨l, hl, hp, hrest⟩ := inv.slot i hi
    refine ⟨l, mem_append_left _ hl, ?_, hrest⟩
    rw [hpending, mem_append]
    rintro (h | h)
    · exact hp h
    · exact hnotnew l hl h
  · intro l hl htail
    rw [hpending]
    obtain hl | hl := mem_append.mp hl
    · exact (inv.waiting l hl htail).imp_left (mem_append_left _)
    · exact .inl (mem_append_right _ hl)
  · obtain htail | ⟨l, hl, htail⟩ := inv.tail
    · cases links with
      | nil =>
        have hcurr : s.currBytePos = r.endBytePos := hspans
        exact .inl (htail.trans hcurr)
      | cons l links => exact .inr ⟨l, by simp, hspans.1.trans htail.symm⟩
    · exact .inr ⟨l, mem_append_left _ hl, htail⟩
  · intro l hl hnot
    rw [hpending, mem_append] at hnot
    obtain hl | hl := mem_append.mp hl
    · exact inv.copied l hl fun h => hnot (.inl h)
    · exact (hnot (.inr hl)).elim
  · exact forall_mem_append.mpr ⟨inv.head, forall_mem_singleton.mpr (by simp)⟩

end Inv

theorem flatMap_set {inserters : List Inserter} {i : Nat} {r : Inserter} (r' : Inserter)
    (h : inserters[i]? = some r) :
    ∃ before after, inserters.flatMap Inserter.links = before ++ r.links ++ after ∧
      (inserters.set i r').flatMap Inserter.links = before ++ r'.links ++ after := by
  obtain ⟨hi, rfl⟩ := List.getElem?_eq_some_iff.mp h
  refine ⟨(inserters.take i).flatMap Inserter.links, (inserters.drop (i + 1)).flatMap
    Inserter.links, ?_, ?_⟩
  · have hsplit : inserters = inserters.take i ++ inserters[i] :: inserters.drop (i + 1) := by
      rw [← drop_eq_getElem_cons hi, take_append_drop]
    have := congrArg (List.flatMap Inserter.links) hsplit
    simpa only [flatMap_append, flatMap_cons, append_assoc] using this
  · rw [set_eq_take_append_cons_drop, if_pos hi]
    simp

namespace Inv

section

variable (inv : Inv c start s)
include inv

theorem copy {i : Nat} (hs : s.step c (.copy i) = some t) : Inv c start t := by
  simp only [State.step] at hs
  split at hs
  · next link links hi =>
    cases hs
    have hpending : State.pending { s with
        inserters := s.inserters.set i ⟨link :: links, true⟩, copied := link :: s.copied } =
        s.pending := by
      obtain ⟨before, after, h1, h2⟩ :=
        flatMap_set ⟨link :: links, true⟩ hi
      exact h2.trans h1.symm
    have hmono : ∀ pos, CopiedAt c s pos → CopiedAt c { s with
        inserters := s.inserters.set i ⟨link :: links, true⟩, copied := link :: s.copied } pos :=
      fun pos ⟨l, hl, hpos⟩ => ⟨l, mem_cons_of_mem _ hl, hpos⟩
    refine { inv with
      nodup := hpending ▸ inv.nodup
      pending := hpending ▸ inv.pending
      slot := hpending ▸ inv.slot
      waiting := hpending ▸ inv.waiting
      copied := hpending ▸ fun l hl hnot => mem_cons_of_mem _ (inv.copied l hl hnot)
      head := fun r hr hc l hl => ?_
      before := fun pos h => hmono pos (inv.before pos h)
      fileCopied := fun pos h => hmono pos (inv.fileCopied pos h) }
    obtain hr | rfl := mem_or_eq_of_mem_set hr
    · exact mem_cons_of_mem _ (inv.head r hr hc l hl)
    · obtain rfl : link = l := by simpa using hl
      exact mem_cons_self
  · cases hs

/-- What is known when an inserter adds its next link: the slot is free. -/
theorem slot_free {i startLsn endLsn : Nat} {links : List Link}
    (hi : s.inserters[i]? = some ⟨(startLsn, endLsn) :: links, true⟩)
    (hspace : s.readyWritePosition + c.arraySize > c.bytePos startLsn) :
    s.slots (c.slot (c.bytePos startLsn)) = 0 := by
  have hmem : (startLsn, endLsn) ∈ s.pending :=
    mem_flatMap.mpr ⟨_, mem_of_getElem? hi, mem_cons_self⟩
  obtain ⟨hhist, htail⟩ := inv.pending _ hmem
  by_contra hne
  obtain ⟨l, hl, hnot, hslot, hlt, hst⟩ := inv.slot _ hne
  have heq := inv.eq_of_slot hlt hst htail hspace hslot
  obtain rfl : l = (startLsn, endLsn) := inv.spans.eq_of_start hl hhist heq
  exact hnot hmem

/-- An inserter adds its next link. -/
theorem addLink {i : Nat} (hs : s.step c (.addLink i) = some t) : Inv c start t := by
  simp only [State.step] at hs
  split at hs
  · next startLsn endLsn links hi =>
    obtain ⟨hspace, ⟨⟩⟩ := Option.ite_none_right_eq_some.mp hs
    have hfree := inv.slot_free hi hspace
    obtain ⟨before, after, h1, h2⟩ := flatMap_set ⟨links, false⟩ hi
    have hp : s.pending = before ++ (startLsn, endLsn) :: (links ++ after) := by
      simpa [State.pending] using h1
    generalize hl0 : (startLsn, endLsn) = l0 at *
    have hnodup := inv.nodup
    rw [hp, perm_middle.nodup_iff, nodup_cons] at hnodup
    have hp' : State.pending { s with
        slots := update s.slots (c.slot (c.bytePos startLsn))
          (c.bytePos endLsn - c.bytePos startLsn)
        inserters := s.inserters.set i ⟨links, false⟩ } = before ++ (links ++ after) := by
      simpa [State.pending] using h2
    have hsub : ∀ l, l ∈ before ++ (links ++ after) → l ∈ s.pending ∧ l ≠ l0 := by
      intro l hl
      refine ⟨?_, fun heq => hnodup.1 (heq ▸ hl)⟩
      rw [hp]
      obtain hl | hl := mem_append.mp hl
      · exact mem_append_left _ hl
      · exact mem_append_right _ (mem_cons_of_mem _ hl)
    have hback : ∀ l ∈ s.pending, l = l0 ∨ l ∈ before ++ (links ++ after) := by
      intro l hl
      rw [hp] at hl
      obtain hl | hl := mem_append.mp hl
      · exact .inr (mem_append_left _ hl)
      · exact (mem_cons.mp hl).imp_right (mem_append_right _)
    have hmem : l0 ∈ s.pending := by simp [hp]
    obtain ⟨hhist, htail⟩ := inv.pending l0 hmem
    have hstart : c.bytePos l0.1 = c.bytePos startLsn := by rw [← hl0]
    have hdist : c.bytePos l0.2 = c.bytePos endLsn := by rw [← hl0]
    -- the new link is stored, and the others stay where they are
    have hstored0 : Stored c { s with
        slots := update s.slots (c.slot (c.bytePos startLsn))
          (c.bytePos endLsn - c.bytePos startLsn)
        inserters := s.inserters.set i ⟨links, false⟩ } l0 := by
      refine ⟨?_, by rw [hstart]; exact hspace⟩
      rw [hstart, hdist]
      exact update_self ..
    have hkeep : ∀ l ∈ s.history, Stored c s l → Stored c { s with
        slots := update s.slots (c.slot (c.bytePos startLsn))
          (c.bytePos endLsn - c.bytePos startLsn)
        inserters := s.inserters.set i ⟨links, false⟩ } l := by
      intro l hl hst
      refine ⟨?_, hst.2⟩
      have hne : c.slot (c.bytePos l.1) ≠ c.slot (c.bytePos startLsn) := fun heq =>
        inv.stored_ne_zero hl hst (heq ▸ hfree)
      exact (update_of_ne hne ..).trans hst.1
    refine { inv with
      nodup := hp' ▸ hnodup.2
      pending := hp' ▸ fun l hl => inv.pending l (hsub l hl).1
      slot := ?_, waiting := ?_, copied := ?_, head := ?_ }
    · rw [hp']
      intro j hj
      by_cases hjs : j = c.slot (c.bytePos startLsn)
      · exact ⟨l0, hhist, fun h => (hsub l0 h).2 rfl, by rw [hstart, hjs], htail, hstored0⟩
      · obtain ⟨l, hl, hnot, hslot, hlt, hst⟩ := inv.slot j (by
          simpa [update_of_ne hjs] using hj)
        exact ⟨l, hl, fun h => hnot (hsub l h).1, hslot, hlt, hkeep l hl hst⟩
    · rw [hp']
      intro l hl hlt
      obtain h | hst := inv.waiting l hl hlt
      · obtain rfl | h := hback l h
        · exact .inr hstored0
        · exact .inl h
      · exact .inr (hkeep l hl hst)
    · rw [hp']
      intro l hl hnot
      by_cases hlp : l ∈ s.pending
      · obtain rfl | h := hback l hlp
        · exact inv.head _ (mem_of_getElem? hi) rfl l (by simp)
        · exact (hnot h).elim
      · exact inv.copied l hl hlp
    · intro r hr hc
      obtain hr | rfl := mem_or_eq_of_mem_set hr
      · exact inv.head r hr hc
      · cases hc
  · cases hs

/-- Before the ready position everything is copied. -/
theorem copiedAt {pos : Nat} (hlt : pos < s.readyWritePosition) : CopiedAt c s pos := by
  by_cases hstart : pos < start
  · exact inv.before pos hstart
  · obtain ⟨-, hready, hcurr⟩ := inv.ready_le
    obtain ⟨l, hl, hlo, hhi⟩ := inv.spans.cover (Nat.le_of_not_lt hstart) (by omega)
    refine ⟨l, inv.copied l hl fun hp => ?_, hlo, hhi⟩
    have : s.tailPos ≤ recPtrToBytePos c.pages l.1 := (inv.pending l hp).2
    omega

theorem copiedAt_readyWriteLsn {pos : Nat}
    (hlt : bytePosToRecPtr c.pages pos < s.readyWriteLsn c) : CopiedAt c s pos :=
  inv.copiedAt (lt_of_recPtr_lt_endRecPtr c.pages_pos hlt)

/-- A write up to the ready position rewrites the page of the old write position, and what it leaves
behind its own is on its last page. -/
theorem xlogWrite {rqst : Nat} (hready : rqst ≤ s.readyWriteLsn c) :
    Inv c start (s.xlogWrite c rqst) := by
  unfold State.xlogWrite
  split
  · next hlt =>
    refine { inv with fileCopied := ?_, written := ?_, page := ?_ }
    · intro pos h
      dsimp only at h
      split at h
      · exact isCopied_iff.mp (Option.some.inj h)
      · exact inv.fileCopied pos h
    · intro pos hpos
      have hcopied := inv.copiedAt_readyWriteLsn (lt_of_lt_of_le hpos hready)
      have hstart : bytePosToRecPtr c.pages pos / xlogBlcksz * xlogBlcksz < rqst :=
        (Nat.div_mul_le_self ..).trans_lt hpos
      dsimp only
      split
      · exact congrArg some (isCopied_iff.mpr hcopied)
      · next hpage =>
        refine inv.written pos (Nat.lt_of_not_le fun hle => hpage ⟨?_, hstart⟩)
        exact Nat.div_le_div_right hle
    · intro pos h
      dsimp only at h
      split at h
      · next hpage => exact hpage.2
      · exact (inv.page pos h).trans hlt
  · exact inv

/-- The link that stands in the slot of the tail starts at the tail. -/
theorem link_at_tail (h : s.slots (c.slot s.tailPos) ≠ 0) :
    ∃ l ∈ s.history, l ∉ s.pending ∧ c.bytePos l.1 = s.tailPos ∧
      s.tailPos + s.slots (c.slot s.tailPos) = c.bytePos l.2 := by
  obtain ⟨l, hl, hnot, hslot, hlt, hst⟩ := inv.slot _ h
  have heq := inv.eq_of_slot hlt hst le_rfl (hlt.trans_lt hst.2) hslot
  refine ⟨l, hl, hnot, heq, ?_⟩
  have hval := hst.1
  rw [heq] at hval
  omega

/-- The link at the tail position is cleared. -/
theorem consume {advancer : Advancer} {l : Link}
    (hl : l ∈ s.history) (hnot : l ∉ s.pending) (hstart : c.bytePos l.1 = s.tailPos)
    (ht : t = { s with
      slots := update s.slots (c.slot s.tailPos) 0, advancer := advancer })
    (htail : t.tailPos = c.bytePos l.2)
    (hold : ∀ oldPos tailPos, advancer = .follow oldPos tailPos → oldPos = s.readyWritePosition) :
    Inv c start t := by
  have hready := inv.ready_le
  have hlen : c.bytePos l.1 < c.bytePos l.2 := (inv.spans.mem hl).2.1
  -- every other link behind the tail starts behind the consumed one
  have hnext : ∀ k ∈ s.history, k ≠ l → s.tailPos ≤ c.bytePos k.1 → t.tailPos ≤ c.bytePos k.1 := by
    intro k hk hne hle
    rw [htail]
    obtain heq | hlt := Nat.eq_or_lt_of_le hle
    · exact (hne (inv.spans.eq_of_start hk hl (heq.symm.trans hstart.symm))).elim
    · exact inv.spans.stop_le hl hk (hstart.trans_lt hlt)
  subst ht
  have hkeep : ∀ k, c.slot (c.bytePos k.1) ≠ c.slot s.tailPos → Stored c s k → Stored c { s with
      slots := update s.slots (c.slot s.tailPos) 0, advancer := advancer } k :=
    fun k hne hst => ⟨(update_of_ne hne ..).trans hst.1, hst.2⟩
  refine { inv with
    ready_le := htail ▸ ⟨hready.1, hready.2.1.trans (hstart ▸ hlen.le), (inv.spans.mem hl).2.2⟩
    oldPos := hold
    pending := fun k hk => ?_
    slot := fun i hi => ?_
    waiting := fun k hk hle => ?_
    tail := htail ▸ inv.spans.next hl
    boundary := .inr ⟨l, hl, htail.symm⟩ }
  · obtain ⟨hhist, hle⟩ := inv.pending k hk
    exact ⟨hhist, hnext k hhist (fun h => hnot (h ▸ hk)) hle⟩
  · have his : i ≠ c.slot s.tailPos := by
      rintro rfl
      exact hi (update_self ..)
    obtain ⟨k, hk, hknot, hslot, hle, hst⟩ := inv.slot i (by simpa [update_of_ne his] using hi)
    have hne : c.slot (c.bytePos k.1) ≠ c.slot s.tailPos := hslot ▸ his
    refine ⟨k, hk, hknot, hslot, hnext k hk (fun h => hne ?_) hle, hkeep k hne hst⟩
    rw [h, hstart]
  · have hlt : s.tailPos < c.bytePos k.1 := by omega
    refine (inv.waiting k hk hlt.le).imp_right fun hst => hkeep k (fun heq => ?_) hst
    have := inv.eq_of_slot hlt.le hst le_rfl (hlt.trans hst.2) heq
    omega

theorem setAdvancer {advancer : Advancer} {ready : Nat}
    (ht : t = { s with advancer := advancer, readyWritePosition := ready })
    (htail : t.tailPos = s.tailPos)
    (hready : ready = s.readyWritePosition ∨ ready = s.tailPos)
    (hold : ∀ oldPos tailPos, advancer = .follow oldPos tailPos → oldPos = ready) :
    Inv c start t := by
  have hle := inv.ready_le
  have hle' : s.readyWritePosition ≤ ready ∧ ready ≤ s.tailPos := by omega
  have hstored : ∀ l, Stored c s l → Stored c t l := by
    intro l hst
    rw [ht]
    exact ⟨hst.1, hst.2.trans_le (Nat.add_le_add_right hle'.1 _)⟩
  subst ht
  refine { inv with
    ready_le := htail ▸ ⟨hle.1.trans hle'.1, hle'.2, hle.2.2⟩
    oldPos := hold
    pending := htail ▸ inv.pending
    slot := fun i hi => ?_
    waiting := htail ▸ fun l hl hlt => (inv.waiting l hl hlt).imp_right (hstored l)
    tail := htail ▸ inv.tail
    boundary := htail ▸ inv.boundary
    readyBoundary := ?_ }
  · obtain ⟨l, hl, hnot, hslot, hlt, hst⟩ := inv.slot i hi
    exact ⟨l, hl, hnot, hslot, by rw [htail]; exact hlt, hstored l hst⟩
  · obtain h | h := hready
    · rw [h]
      exact inv.readyBoundary
    · rw [h]
      exact inv.boundary

theorem advance : Inv c start (s.advance c) := by
  unfold State.advance
  split
  · next hpc =>
    refine inv.setAdvancer rfl ?_ (.inl rfl) ?_
    · simp [State.tailPos, hpc]
    · rintro _ _ ⟨⟩
      rfl
  · next oldPos tailPos hpc =>
    have htail : s.tailPos = tailPos := by simp [State.tailPos, hpc]
    have hold := inv.oldPos oldPos tailPos hpc
    have hle := inv.ready_le
    subst htail
    dsimp only
    split
    · refine inv.setAdvancer rfl ?_ (.inl rfl) ?_
      · by_cases hlt : oldPos < s.tailPos
        · rw [if_pos hlt]
          rfl
        · -- nothing was consumed: the tail is the ready position
          simp only [if_neg hlt]
          show s.readyWritePosition = s.tailPos
          omega
      · intro _ _ h
        split at h <;> cases h
    · next hne =>
      obtain ⟨l, hl, hnot, hstart, hend⟩ := inv.link_at_tail hne
      rw [hend]
      refine inv.consume hl hnot hstart rfl ?_ ?_
      · simp only [State.tailPos]
        split
        · next h => split at h <;> cases h
        · next h =>
          split at h
          · cases h
          · cases h
            rfl
        · next h =>
          split at h
          · cases h
            rfl
          · cases h
      · intro _ _ h
        split at h
        · cases h
        · cases h
          exact hold
  · next tailPos hpc =>
    have htail : s.tailPos = tailPos := by simp [State.tailPos, hpc]
    rw [c.bytePos_endRecPtr]
    exact inv.setAdvancer rfl htail.symm (.inr htail.symm) (by rintro _ _ ⟨⟩)

theorem step {op : Op} (hs : s.step c op = some t) : Inv c start t := by
  cases op with
  | insert isLogSwitch rdata => exact inv.insert hs
  | copy i => exact inv.copy hs
  | addLink i => exact inv.addLink hs
  | advance =>
    cases hs
    exact inv.advance
  | write rqst =>
    cases hs
    exact inv.xlogWrite (min_le_right ..)

end

theorem run (h : Reaches (State.step c) (fun _ _ => True) (State.init c start) s) :
    Inv c start s :=
  h.invariant (Inv c start) (Inv.init c start) fun _ _ _ inv _ hs => inv.step hs

end Inv

/-! ### Progress -/

section Progress

/-- The bytes left to consume, and the steps to the next look at the slots. -/
def State.todo (s : State) : Nat :=
  3 * (s.currBytePos - s.tailPos) +
    match s.advancer with
    | .follow _ _ => 0
    | .idle => 1
    | .publish _ => 2

variable (inv : Inv c start s)
include inv

end Progress

end Polar.Pipeline.RecentWritten
