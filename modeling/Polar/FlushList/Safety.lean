import Polar.FlushList.Step

/-!
# The consistent LSN never passes an unwritten modification

A value bounds a state if it is not above the insert position and not above any oldest LSN. No step
takes a value out of this: a buffer enters its list at the insert position, and a copy takes the
oldest LSN of a buffer in a list. The calculation reads the lists at one moment and the copy buffers
one after the other; what it has read up to there bounds everything but the copy buffers still to be
read.
-/

namespace Polar.FlushList

open List

variable {copyBuffers : Nat} {s t : State}

/-- `v` is a lower bound, except perhaps for copy buffers in `pending`. -/
structure Bound (s : State) (pending : Nat → Prop) (v : Nat) : Prop where
  insertLsn : v ≤ s.insertLsn
  buffers : ∀ b L, (s.buffers b).oldest = some L → v ≤ L
  copies : ∀ c C, (s.copies c).oldest = some C → v ≤ C ∨ pending c

namespace Bound

variable {pending : Nat → Prop} {v : Nat}

/-- Steps on a buffer keep a bound. -/
theorem change {b : Nat} (h : Bound s pending v) (d : Change copyBuffers s t b) :
    Bound t pending v where
  insertLsn := d.insertLsn ▸ h.insertLsn
  buffers a L hL := by
    by_cases hab : a = b
    · subst hab
      rcases d.oldest L hL with hs | rfl
      · exact h.buffers a L hs
      · exact h.insertLsn
    · rw [d.others a hab] at hL
      exact h.buffers a L hL
  copies c C hC := by
    rcases d.copied c C hC with hs | hs
    · exact h.copies c C hs
    · exact .inl (h.buffers b C hs)

theorem insertRecord (h : Bound s pending v) (bs : List Nat) (len : Nat) :
    Bound (s.insertRecord bs len) pending v where
  insertLsn := h.insertLsn.trans (Nat.le_add_right _ _)
  buffers b L hL := by
    apply h.buffers b L
    simp only [State.insertRecord] at hL
    split at hL <;> exact hL
  copies := h.copies

/-- A bound of the state is below every unwritten modification. -/
theorem le_unwritten (h : Bound s (fun _ => False) v) (hinv : Inv copyBuffers s) {b m : Nat}
    (hm : m ∈ (s.buffers b).unwritten) : v ≤ m := by
  rcases (hinv.buffers b).bounded m hm with ⟨L, hL, hle⟩ | ⟨c, C, _, hC, hle⟩
  · exact (h.buffers b L hL).trans hle
  · exact ((h.copies c C hC).resolve_right id).trans hle

end Bound

section Minimum

/-- `lsn` is the smallest value with the property `P`, and invalid if there is none. -/
def IsMinLsn (P : Nat → Prop) : Option Nat → Prop
  | none => ∀ v, ¬ P v
  | some v => P v ∧ ∀ w, P w → v ≤ w

theorem IsMinLsn.congr {P Q : Nat → Prop} {lsn : Option Nat} (h : IsMinLsn P lsn)
    (hPQ : ∀ v, P v ↔ Q v) : IsMinLsn Q lsn := by
  have hPQ : P = Q := funext fun v => propext (hPQ v)
  exact hPQ ▸ h

theorem IsMinLsn.minLsn {P Q : Nat → Prop} {lsn other : Option Nat} (h : IsMinLsn P lsn)
    (h' : IsMinLsn Q other) : IsMinLsn (fun v => P v ∨ Q v) (minLsn lsn other) := by
  match lsn, other, h, h' with
  | none, none, h, h' => exact fun v => not_or.mpr ⟨h v, h' v⟩
  | none, some v, h, h' => exact ⟨.inr h'.1, fun w hw => h'.2 w (hw.resolve_left (h w))⟩
  | some v, none, h, h' => exact ⟨.inl h.1, fun w hw => h.2 w (hw.resolve_right (h' w))⟩
  | some v, some v', h, h' =>
    constructor
    · rcases le_total v v' with hle | hle
      · exact .inl (by rw [min_eq_left hle]; exact h.1)
      · exact .inr (by rw [min_eq_right hle]; exact h'.1)
    · rintro w (hw | hw)
      · exact (min_le_left _ _).trans (h.2 w hw)
      · exact (min_le_right _ _).trans (h'.2 w hw)

theorem isMinLsn_self (lsn : Option Nat) : IsMinLsn (fun v => lsn = some v) lsn := by
  cases lsn with
  | none => exact fun v => by simp
  | some v => exact ⟨rfl, fun w hw => (Option.some.inj hw).le⟩

theorem IsMinLsn.foldl {key : Nat → Option Nat} (is : List Nat) {P : Nat → Prop}
    {lsn : Option Nat} (h : IsMinLsn P lsn) :
    IsMinLsn (fun v => P v ∨ ∃ i ∈ is, key i = some v)
      (is.foldl (fun lsn i => FlushList.minLsn lsn (key i)) lsn) := by
  induction is generalizing P lsn with
  | nil => exact h.congr (by simp)
  | cons i is ih =>
    apply (ih (h.minLsn (isMinLsn_self (key i)))).congr
    simp [or_assoc]

/-- The first pass, which holds the locks of all lists, finds the minimum of their buffers. -/
theorem Inv.listsMin (h : Inv copyBuffers s) :
    match s.listsMin with
    | none => ∀ b, (s.buffers b).oldest = none
    | some v => (∃ b, (s.buffers b).oldest = some v) ∧
        ∀ b L, (s.buffers b).oldest = some L → v ≤ L := by
  have hmin : IsMinLsn _ s.listsMin :=
    IsMinLsn.foldl (P := fun _ => False) (range partitions) fun _ => id
  have hhead : ∀ b L, (s.buffers b).oldest = some L → ∃ A, (False ∨
      ∃ i ∈ range partitions, ((s.lists i).head?.bind fun b => (s.buffers b).oldest) = some A) ∧
      A ≤ L := by
    intro b L hL
    obtain ⟨a, A, ha, hA, hle⟩ := h.lists.head_le hL
    have hpart : partition b ∈ range partitions :=
      mem_range.mpr (Nat.mod_lt b (by decide))
    exact ⟨A, .inr ⟨partition b, hpart, by simpa [ha] using hA⟩, hle⟩
  cases hlists : s.listsMin with
  | none =>
    rw [hlists] at hmin
    intro b
    cases hb : (s.buffers b).oldest with
    | none => rfl
    | some L =>
      obtain ⟨A, hA, _⟩ := hhead b L hb
      exact absurd hA (hmin A)
  | some v =>
    rw [hlists] at hmin
    constructor
    · obtain ⟨i, _, hi⟩ := hmin.1.resolve_left id
      obtain ⟨b, _, hb⟩ := Option.bind_eq_some_iff.mp hi
      exact ⟨b, hb⟩
    · intro b L hL
      obtain ⟨A, hA, hle⟩ := hhead b L hL
      exact (hmin.2 A hA).trans hle

end Minimum

/-- What a process that updates the consistent LSN knows. -/
def CalcOk (s : State) : Calc → Prop
  | .idle => True
  | .started cur => cur ≤ s.consistentLsn
  | .copies cur lsn index =>
    cur ≤ s.consistentLsn ∧ cur ≤ lsn ∧ Bound s (index ≤ ·) lsn
  | .update cur next => cur ≤ next ∧ Bound s (fun _ => False) next
  | .publish next => Bound s (fun _ => False) next

/-- The invariant, and that the consistent LSN is a bound. -/
structure SafeInv (copyBuffers : Nat) (s : State) : Prop where
  inv : Inv copyBuffers s
  bound : Bound s (fun _ => False) s.consistentLsn
  calcs : ∀ p ∈ s.calcs, CalcOk s p
  panicked : s.panicked = false

namespace CalcOk

/-- What a process knows stays true while bounds stay bounds and the consistent LSN grows. -/
theorem mono {p : Calc} (h : CalcOk s p) (hle : s.consistentLsn ≤ t.consistentLsn)
    (hbound : ∀ pending v, Bound s pending v → Bound t pending v) :
    CalcOk t p := by
  cases p with
  | idle => trivial
  | started cur => exact h.trans hle
  | copies cur lsn index => exact ⟨h.1.trans hle, h.2.1, hbound _ _ h.2.2⟩
  | update cur next => exact ⟨h.1, hbound _ _ h.2⟩
  | publish next => exact hbound _ _ h

end CalcOk

namespace SafeInv

/-- A step of the buffers: bounds stay bounds, and the processes do not move. -/
theorem of_bounds (h : SafeInv copyBuffers s) (hinv : Inv copyBuffers t)
    (hbound : ∀ pending v, Bound s pending v → Bound t pending v)
    (hlsn : t.consistentLsn = s.consistentLsn) (hcalcs : t.calcs = s.calcs)
    (hpanicked : t.panicked = s.panicked) : SafeInv copyBuffers t where
  inv := hinv
  bound := hlsn ▸ hbound _ _ h.bound
  calcs p hp := (h.calcs p (hcalcs ▸ hp)).mono hlsn.ge hbound
  panicked := hpanicked.trans h.panicked

theorem change {b : Nat} (h : SafeInv copyBuffers s) (d : Change copyBuffers s t b) :
    SafeInv copyBuffers t :=
  h.of_bounds (h.inv.change d) (fun _ _ hv => hv.change d) d.consistentLsn d.calcs d.panicked

theorem setCalc (h : SafeInv copyBuffers s) (j : Nat) {p : Calc} (hp : CalcOk s p) :
    SafeInv copyBuffers { s with calcs := s.calcs.set j p } where
  inv := { h.inv with }
  bound := { h.bound with }
  calcs other hother := by
    have hold : CalcOk s other := by
      rcases mem_or_eq_of_mem_set hother with hmem | rfl
      · exact h.calcs other hmem
      · exact hp
    exact hold.mono le_rfl fun _ _ hv => { hv with }
  panicked := h.panicked

theorem init {insertLsn consistentLsn : Nat} (hle : consistentLsn ≤ insertLsn) :
    SafeInv copyBuffers (.init insertLsn consistentLsn) where
  inv := .init copyBuffers insertLsn consistentLsn
  bound := ⟨hle, by simp [State.init, Buffer.init], by simp [State.init, CopyBuffer.init]⟩
  calcs := by simp [State.init]
  panicked := rfl

/-- With empty lists no copy buffer has an oldest LSN either. -/
theorem bound_insertLsn (h : SafeInv copyBuffers s) (hnone : ∀ b, (s.buffers b).oldest = none) :
    Bound s (fun _ => False) s.insertLsn where
  insertLsn := le_rfl
  buffers b L hL := absurd ((hnone b).symm.trans hL) (by simp)
  copies c C hC := by
    obtain ⟨b, _, hsome⟩ := h.inv.holder c C hC
    simp [hnone b] at hsome

/-- Reading copy buffer `index` removes it from the pending ones. -/
theorem bound_copy {lsn index : Nat} (h : Bound s (index ≤ ·) lsn) :
    Bound s (index + 1 ≤ ·) (((s.copies index).oldest.map (min lsn)).getD lsn) := by
  have hle : ((s.copies index).oldest.map (min lsn)).getD lsn ≤ lsn := by
    cases (s.copies index).oldest with
    | none => exact le_rfl
    | some C => exact min_le_left _ _
  constructor
  · exact hle.trans h.insertLsn
  · exact fun b L hL => hle.trans (h.buffers b L hL)
  · intro c C hC
    rcases h.copies c C hC with hC' | hc
    · exact .inl (hle.trans hC')
    · rcases Nat.eq_or_lt_of_le hc with rfl | hlt
      · refine .inl ?_
        rw [hC]
        exact min_le_right _ _
      · exact .inr hlt

/-- A calculation goes on. -/
theorem calcStep (h : SafeInv copyBuffers s) {j : Nat} {p : Calc} (hp : CalcOk s p) :
    SafeInv copyBuffers (s.calcStep copyBuffers j p) := by
  cases p with
  | idle => exact h.setCalc j le_rfl
  | started cur =>
    have hcur : cur ≤ s.consistentLsn := hp
    have hmin := h.inv.listsMin
    simp only [State.calcStep]
    cases hlists : s.listsMin with
    | none =>
      rw [hlists] at hmin
      exact h.setCalc j (p := .update cur s.insertLsn)
        ⟨hcur.trans h.bound.insertLsn, h.bound_insertLsn hmin⟩
    | some lsn =>
      rw [hlists] at hmin
      obtain ⟨⟨b, hb⟩, hall⟩ := hmin
      exact h.setCalc j (p := .copies cur lsn 0)
        ⟨hcur, hcur.trans (h.bound.buffers b lsn hb), h.inv.oldest_le b lsn hb, hall,
          fun c _ _ => .inr (Nat.zero_le c)⟩
  | copies cur lsn index =>
    obtain ⟨hcur, hlsn, hbound⟩ := hp
    simp only [State.calcStep]
    split
    · apply h.setCalc j
      refine ⟨hcur, ?_, bound_copy hbound⟩
      cases hC : (s.copies index).oldest with
      | none => exact hlsn
      | some C =>
        exact le_min hlsn (hcur.trans ((h.bound.copies index C hC).resolve_right id))
    · next hend =>
      apply h.setCalc j
      refine ⟨hlsn, hbound.insertLsn, hbound.buffers, fun c C hC => .inl ?_⟩
      -- all copy buffers that exist have been read
      obtain ⟨b, hb, _⟩ := h.inv.holder c C hC
      have hc := (h.inv.used b c hb).2
      exact (hbound.copies c C hC).resolve_right (by omega)
  | update cur next =>
    simp only [State.calcStep]
    rw [if_neg (Nat.not_lt.mpr hp.1)]
    exact h.setCalc j hp.2
  | publish next =>
    have hset := h.setCalc j (p := .idle) trivial
    have hnext : Bound s (fun _ => False) next := hp
    have hle : s.consistentLsn ≤
        if next > s.consistentLsn then next else s.consistentLsn := by
      split <;> omega
    constructor
    · exact { h.inv with }
    · simp only [State.calcStep]
      split
      · exact { hnext with }
      · exact { h.bound with }
    · intro other hother
      exact (hset.calcs other hother).mono hle
        fun _ _ hv => { hv with }
    · exact h.panicked

end SafeInv

section

variable (h : Inv copyBuffers s)
include h

theorem Inv.insertRecord {bs : List Nat} {len : Nat}
    (hbs : ∀ b ∈ bs, (s.buffers b).task = .dirtied) :
    Inv copyBuffers (s.insertRecord bs len) := by
  have holds : ∀ b c, ((s.insertRecord bs len).buffers b).Holds c ↔ (s.buffers b).Holds c := by
    intro b c
    simp only [State.insertRecord]
    split <;> exact Iff.rfl
  have oldest : ∀ b, ((s.insertRecord bs len).buffers b).oldest = (s.buffers b).oldest := by
    intro b
    simp only [State.insertRecord]
    split <;> rfl
  constructor
  · intro b
    have ok := (h.buffers b).frame (Nat.le_add_right s.insertLsn len) fun _ _ => rfl
    simp only [State.insertRecord]
    split
    · next hb =>
      have hok := ok.task
      rw [hbs b hb] at hok
      obtain ⟨L, hL⟩ := Option.isSome_iff_exists.mp hok.1
      have hle := h.oldest_le b L hL
      refine ⟨?_, ok.linked, ?_, ok.oldest_le, ok.dirty, ?_, ?_⟩
      · intro m hm
        cases hm with
        | head => exact .inl ⟨L, hL, hle⟩
        | tail _ hm => exact ok.bounded m hm
      · intro c hc m hm hnot
        cases hm with
        | head =>
          refine ⟨hok.2.resolve_left ?_, L, hL, hle⟩
          simp [show (s.buffers b).copy = some c from hc]
        | tail _ hm => exact ok.fresh c hc m hm hnot
      · simp only [hbs b hb]
        exact hok
      · exact .inl (ok.invalidators_nil_of_task (by simp [hbs b hb]))
    · exact ok
  · intro c C hC
    obtain ⟨b, hb, hsome⟩ := h.holder c C hC
    exact ⟨b, (holds b c).mpr hb, by rwa [oldest b]⟩
  · exact fun b c hb => h.used b c ((holds b c).mp hb)
  · exact fun a b c ha hb => h.exclusive a b c ((holds a c).mp ha) ((holds b c).mp hb)
  · simp only [oldest]
    exact h.lists

/-- A buffer is not given to another page while it is being invalidated. -/
def ReuseOk (s : State) : Op → Prop
  | .reuse b => (s.buffers b).invalidators = []
  | _ => True

instance (s : State) : (op : Op) → Decidable (ReuseOk s op)
  | .reuse b => inferInstanceAs (Decidable ((s.buffers b).invalidators = []))
  | .lock _ | .markDirty _ | .unlock _ | .insert _ _ | .copy _ _ | .copyFlush _ | .flush _
  | .invalidate _ | .invalidator _ _ | .next _ | .calculator | .calculate _ => .isTrue trivial

theorem Inv.reuse {b : Nat} (hdirty : (s.buffers b).dirty = false)
    (hnil : (s.buffers b).invalidators = []) :
    Change copyBuffers s
      (s.setBuffer b { s.buffers b with tagged := true, touched := false }) b := by
  have ok := h.buffers b
  have hcopy : (s.buffers b).copy = none := by
    by_contra hsome
    have := ok.dirty hnil (Option.isSome_iff_ne_none.mpr hsome)
    exact absurd (this.symm.trans hdirty) (by decide)
  have hcovered : Buffer.Covered { s.buffers b with tagged := true, touched := false } :=
    ok.covered_of_copy_none hcopy
  have htask : TaskOk s.copies { s.buffers b with tagged := true, touched := false }
      (s.buffers b).task := by
    have hok := ok.task
    cases hbuf : (s.buffers b).task <;> rw [hbuf] at hok <;> try exact hok
    case touching => exact ⟨hok.1, rfl⟩
    case adjusted => exact ⟨hok.1, rfl⟩
    case dirtied => exact ⟨hok.1, .inl hcopy⟩
  exact h.setBuffer (.of_copy_none hcopy hcovered ok.oldest_le htask (.inl hnil))
    (Buffer.holds_congr rfl rfl rfl) rfl

/-- `InvalidateBuffer` clears the header of a buffer nobody works on. -/
theorem Inv.invalidate {b : Nat} (hfree : (s.buffers b).task = .free)
    (htag : (s.buffers b).tagged = true) :
    Change copyBuffers s (s.setBuffer b
      { s.buffers b with
        tagged := false
        dirty := false
        unwritten := []
        invalidators := (s.buffers b).invalidators ++ [.freeCopy] }) b := by
  have ok := h.buffers b
  have hnil := ok.invalidators_nil_of_tagged htag
  apply h.setBuffer
  · refine ⟨by simp, ok.linked, by simp, ok.oldest_le, by simp, by rw [hfree]; trivial, .inr ?_⟩
    exact ⟨.freeCopy, by simp [hnil], rfl, hfree, rfl, by simp [ReleaseOk, Buffer.Covered]⟩
  · intro c
    simp [Buffer.Holds, Release.slot]
  · rfl

theorem Inv.copy {b c : Nat} (hfree : (s.buffers b).task = .free)
    (htag : (s.buffers b).tagged = true) (hdirty : (s.buffers b).dirty = true)
    (hcopy : (s.buffers b).copy = none) (hsome : (s.buffers b).oldest.isSome = true)
    (hc : c < copyBuffers) (hused : (s.copies c).used = false) :
    Change copyBuffers s
      ((s.setCopy c { s.copies c with used := true }).setTask b (.copyTaken c)) b := by
  have ok := h.buffers b
  have hnil := ok.invalidators_nil_of_tagged htag
  have hnone : (s.copies c).oldest = none := by
    cases hC : (s.copies c).oldest with
    | none => rfl
    | some C =>
      obtain ⟨a, ha, _⟩ := h.holder c C hC
      exact absurd ((h.used a c ha).1.symm.trans hused) (by decide)
  apply h.setCopy
  · exact .of_copy_none hcopy (ok.covered_of_copy_none hcopy) ok.oldest_le
      ⟨hdirty, hcopy, hsome, by simpa [State.setCopy] using hnone⟩ (.inl hnil)
  · rfl
  · exact .inr ⟨hused, hc⟩
  · intro x hx
    simp [Buffer.Holds, State.setCopy, hcopy, hfree, Task.slot, Ne.symm hx]
  · exact fun _ => rfl
  · intro C hC
    exact absurd (hnone.symm.trans hC) (by simp)

/-- Starting a task that has nothing in its hand, on a buffer that holds a page. -/
theorem Inv.startTask {b : Nat} {task : Task}
    (hfree : (s.buffers b).task = .free) (htag : (s.buffers b).tagged = true)
    (hslot : task.slot = none) (htask : TaskOk s.copies { s.buffers b with task } task) :
    Change copyBuffers s (s.setTask b task) b :=
  h.setTask ((h.buffers b).invalidators_nil_of_tagged htag) (by rw [hfree, hslot]; rfl) htask

end

/-- Every step keeps the invariant. -/
theorem SafeInv.keep (h : SafeInv copyBuffers s) {op : Op} (hok : ReuseOk s op)
    (hs : s.step copyBuffers op = some t) : SafeInv copyBuffers t := by
  cases op <;> simp only [State.step] at hs
  case reuse b =>
    split at hs <;> cases hs
    next hcond => exact h.change (h.inv.reuse hcond.2 hok)
  case lock b =>
    split at hs <;> cases hs
    next hcond => exact h.change (h.inv.startTask hcond.1 hcond.2 rfl trivial)
  case markDirty b =>
    split at hs <;> cases hs
    next hcond => exact h.change (h.inv.markDirty hcond)
  case unlock b =>
    split at hs <;> cases hs
    next hcond =>
      refine h.change (h.inv.setTask ?_ ?_ trivial)
      · apply (h.inv.buffers b).invalidators_nil_of_task
        rcases hcond with ht | ht <;> simp [ht]
      · rcases hcond with ht | ht <;> rw [ht] <;> rfl
  case insert bs len =>
    split at hs <;> cases hs
    next hcond =>
      exact h.of_bounds (h.inv.insertRecord hcond) (fun _ _ hv => hv.insertRecord bs len)
        rfl rfl rfl
  case copy b c =>
    split at hs <;> cases hs
    next hcond =>
      obtain ⟨hfree, htag, hdirty, hcopy, hsome, hc, hused⟩ := hcond
      exact h.change (h.inv.copy hfree htag hdirty hcopy hsome hc hused)
  case copyFlush b =>
    split at hs <;> cases hs
    next hcond => exact h.change (h.inv.startTask hcond.1 hcond.2.1 rfl hcond.2.2.2)
  case flush b =>
    split at hs <;> cases hs
    next hcond => exact h.change (h.inv.startTask hcond.1 hcond.2.1 rfl trivial)
  case invalidate b =>
    split at hs <;> cases hs
    next hcond => exact h.change (h.inv.invalidate hcond.1 hcond.2)
  case invalidator b k =>
    obtain ⟨r, hr, rfl⟩ := Option.map_eq_some_iff.mp hs
    exact h.change (h.inv.invalidatorStep hr)
  case next b => exact h.change (h.inv.nextTask hs)
  case calculator =>
    cases hs
    refine ⟨{ h.inv with },
      { h.bound with }, ?_, h.panicked⟩
    intro p hp
    have hold : CalcOk s p := by
      rcases mem_append.mp hp with hp | hp
      · exact h.calcs p hp
      · obtain rfl := mem_singleton.mp hp
        trivial
    exact hold.mono le_rfl fun _ _ hv => { hv with }
  case calculate j =>
    obtain ⟨p, hp, rfl⟩ := Option.map_eq_some_iff.mp hs
    exact h.calcStep (h.calcs p (mem_of_getElem? hp))

namespace State

theorem freeStep_consistentLsn (s : State) (b : Nat) (r : Release) :
    (s.freeStep b r).1.consistentLsn = s.consistentLsn := by
  unfold freeStep
  split
  · split <;> rfl
  all_goals rfl

theorem resetOldest_consistentLsn (s : State) (b : Nat) :
    (s.resetOldest b).consistentLsn = s.consistentLsn := by
  unfold resetOldest
  split <;> rfl

theorem nextTask_consistentLsn {b : Nat} (hs : s.nextTask b = some t) :
    t.consistentLsn = s.consistentLsn := by
  simp only [nextTask] at hs
  split at hs
  case h_4 =>
    cases hs
    simp only [adjustPosition]
    split <;> rfl
  case h_9 =>
    obtain ⟨c, _, rfl⟩ := Option.map_eq_some_iff.mp hs
    rfl
  case h_12 =>
    cases hs
    exact s.resetOldest_consistentLsn b
  case h_13 =>
    cases hs
    exact s.freeStep_consistentLsn b _
  all_goals
    cases hs
    try rfl

theorem invalidatorStep_consistentLsn (s : State) (b k : Nat) (r : Release) :
    (s.invalidatorStep b k r).consistentLsn = s.consistentLsn := by
  cases r with
  | freed => exact s.resetOldest_consistentLsn b
  | freeCopy => exact s.freeStep_consistentLsn b .freeCopy
  | freeOldest c => exact s.freeStep_consistentLsn b (.freeOldest c)
  | freeSlot c => exact s.freeStep_consistentLsn b (.freeSlot c)

/-- The published value only grows. -/
theorem step_consistentLsn_le {op : Op} (hs : s.step copyBuffers op = some t) :
    s.consistentLsn ≤ t.consistentLsn := by
  cases op with
  | next b => exact (nextTask_consistentLsn hs).ge
  | invalidator b k =>
    obtain ⟨r, _, rfl⟩ := Option.map_eq_some_iff.mp hs
    exact (s.invalidatorStep_consistentLsn b k r).ge
  | calculate j =>
    obtain ⟨p, _, rfl⟩ := Option.map_eq_some_iff.mp hs
    cases p with
    | update cur next =>
      simp only [calcStep]
      split <;> exact le_rfl
    | publish next =>
      simp only [calcStep]
      split <;> omega
    | _ => exact le_rfl
  | markDirty b =>
    simp only [step] at hs
    split at hs <;> cases hs
    simp only [markDirty]
    split
    · exact le_rfl
    · split <;> exact le_rfl
  | calculator =>
    cases hs
    exact le_rfl
  | _ =>
    simp only [step] at hs
    split at hs <;> cases hs
    exact le_rfl

end State

/-- The consistent LSN is not above an unwritten modification, it does not decrease, and it was
never going to. -/
def Safe (copyBuffers : Nat) (s : State) : Prop :=
  s.panicked = false ∧ (∀ b, ∀ m ∈ (s.buffers b).unwritten, s.consistentLsn ≤ m) ∧
    ∀ op t, s.step copyBuffers op = some t → s.consistentLsn ≤ t.consistentLsn

/-- If no buffer is reused while it is invalidated, no unwritten modification is passed. -/
theorem consistentLsn_safe {insertLsn consistentLsn : Nat} (hle : consistentLsn ≤ insertLsn)
    (run : Reaches (State.step copyBuffers) ReuseOk (.init insertLsn consistentLsn) s) :
    Safe copyBuffers s := by
  have h : SafeInv copyBuffers s :=
    run.invariant (SafeInv copyBuffers) (.init hle) fun _ _ _ hu hok hstep => hu.keep hok hstep
  exact ⟨h.panicked, fun _ _ hm => h.bound.le_unwritten h.inv hm,
    fun _ _ hs => State.step_consistentLsn_le hs⟩

/-- A page is modified, copied and modified again. The copy keeps the consistent LSN at the first
modification. -/
def copiedRun : List Op :=
  [.reuse 0, .lock 0, .markDirty 0, .insert [0] 10, .unlock 0, .copy 0 0, .next 0, .next 0, .next 0,
    .lock 0, .markDirty 0, .next 0, .next 0, .insert [0] 10, .unlock 0, .calculator] ++
    replicate 6 (.calculate 0)

/-- The run, and where the consistent LSN stays. -/
theorem consistentLsn_safe_copied : ∃ s,
    Reaches (State.step 1) ReuseOk (.init 100 50) s ∧ Safe 1 s ∧ s.consistentLsn = 100 ∧
      (s.buffers 0).oldest = some 110 ∧ (s.buffers 0).unwritten = [110, 100] := by
  obtain ⟨s, run, hview⟩ := exists_reaches_tested (State.step 1) ReuseOk (.init 100 50) copiedRun
    (fun s => s.consistentLsn = 100 ∧ (s.buffers 0).oldest = some 110 ∧
      (s.buffers 0).unwritten = [110, 100]) (by decide +kernel)
  exact ⟨s, run, consistentLsn_safe (by decide) run, hview⟩

/-- A flush list holds the buffers of its partition with an oldest LSN, each once and in the order
of these LSNs; a copy buffer that a buffer holds is in use, and no other buffer holds it. -/
theorem flushLists_exact {insertLsn consistentLsn : Nat} (hle : consistentLsn ≤ insertLsn)
    (run : Reaches (State.step copyBuffers) ReuseOk (.init insertLsn consistentLsn) s) :
    ListsOk s.lists (fun b => (s.buffers b).oldest) ∧
      ∀ a c, (s.buffers a).Holds c → (s.copies c).used = true ∧
        ∀ b, (s.buffers b).Holds c → b = a := by
  have h : SafeInv copyBuffers s :=
    run.invariant (SafeInv copyBuffers) (.init hle) fun _ _ _ hu hok hstep => hu.keep hok hstep
  exact ⟨h.inv.lists, fun a c ha =>
    ⟨(h.inv.used a c ha).1, fun b hb => h.inv.exclusive b a c hb ha⟩⟩

/-- Two buffers of one partition are modified in turn, and the first one again after it was
copied. -/
theorem flushLists_exact_two : ∃ s : State, s.lists 0 = [64, 0] ∧
    (ListsOk s.lists fun b => (s.buffers b).oldest) ∧ (s.buffers 0).copy = some 0 ∧
      (s.copies 0).used = true := by
  obtain ⟨s, run, hlist, hcopy⟩ := exists_reaches_tested (State.step 1) ReuseOk (.init 100 50)
    ([.reuse 64, .reuse 0, .lock 0, .markDirty 0, .insert [0] 10, .lock 64, .markDirty 64,
      .insert [64] 10, .unlock 0, .copy 0 0] ++ replicate 3 (.next 0) ++
      [.lock 0, .markDirty 0, .next 0, .next 0])
    (fun s => s.lists 0 = [64, 0] ∧ (s.buffers 0).copy = some 0) (by decide +kernel)
  obtain ⟨hlists, hused⟩ := flushLists_exact (by decide) run
  exact ⟨s, hlist, hlists, hcopy, (hused 0 0 (.inl hcopy)).1⟩

/-- A dirty page is dropped. Before its buffer leaves the flush list it is given to another page,
which is modified under the oldest LSN of the dropped one; then it leaves the list. -/
def reusedRun : List Op :=
  [.reuse 0, .lock 0, .markDirty 0, .insert [0] 10, .unlock 0, .invalidate 0, .reuse 0, .lock 0,
    .markDirty 0, .insert [0] 10, .unlock 0, .invalidator 0 0, .invalidator 0 0, .calculator] ++
    replicate 4 (.calculate 0)

/-- Without the condition on `reuse` a modification is passed. -/
theorem consistentLsn_unsafe : ¬ ∀ (copyBuffers insertLsn consistentLsn : Nat) (s : State),
    consistentLsn ≤ insertLsn →
    Reaches (State.step copyBuffers) (fun _ _ => True) (.init insertLsn consistentLsn) s →
    Safe copyBuffers s := by
  intro hsafe
  obtain ⟨s, run, hlsn, hunwritten⟩ := exists_reaches_any (State.step 1) (.init 100 50) reusedRun
    (fun s => s.consistentLsn = 120 ∧ (s.buffers 0).unwritten = [110]) (by decide +kernel)
  have h := (hsafe 1 100 50 s (by decide) run).2.1 0 110 (by simp [hunwritten])
  rw [hlsn] at h
  exact absurd h (by decide)

end Polar.FlushList
