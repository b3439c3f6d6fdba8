import Polar.DropBuffers.System

/-!
# Lookups and scans leave the same buffers

As long as the backend is at work, every buffer to drop that is still there lies ahead of it. It
drops only such buffers. A fork that does not exist is not looked up.
-/

namespace Polar.DropBuffers

open List Function
open State (dropStep)

variable {ρ : Type*} [LinearOrder ρ] {node : Node ρ} {request : Request ρ} {s t : State ρ}

/-! ## The plan -/

omit [LinearOrder ρ] in
theorem Request.Drops.mem_rels {tag : Tag ρ} (h : request.Drops tag) : tag.rel ∈ request.rels := by
  cases request with
  | relation rel forks => exact mem_singleton.mpr h.1
  | all rels => exact h

/-- The buffers that the lookups of a range drop. -/
def Range.Matches (r : Range ρ) (tag : Tag ρ) : Prop :=
  tag.rel = r.rel ∧ tag.fork = r.fork ∧ r.firstDelBlock ≤ tag.block

omit [LinearOrder ρ] in
/-- An unknown length makes the sum invalid. -/
theorem blocksToInvalidate_eq_invalid {rel : ρ} {forks : List (ForkNumber × Nat)} {total : Nat}
    {fork : ForkNumber} {first : Nat} (hmem : (fork, first) ∈ forks)
    (hread : node.unread fork = false) (hnone : node.nblocks rel fork = none) :
    node.blocksToInvalidate rel forks total = invalidBlock := by
  induction forks generalizing total with
  | nil => cases hmem
  | cons entry forks ih =>
    obtain ⟨fork', first'⟩ := entry
    rw [Node.blocksToInvalidate]
    rcases mem_cons.mp hmem with heq | hmem
    · obtain ⟨rfl, rfl⟩ := Prod.mk.inj heq
      simp [hread, hnone]
    · split
      · exact ih hmem
      · cases node.nblocks rel fork' with
        | none => rfl
        | some n => exact ih hmem

omit [LinearOrder ρ] in
theorem known_of_totalBlocks {pairs : List (ρ × ForkNumber)} {total sum : Nat} {rel : ρ}
    {fork : ForkNumber} (hmem : (rel, fork) ∈ pairs) (h : node.totalBlocks pairs total = some sum)
    (hnone : node.nblocks rel fork = none) :
    node.unread fork = true ∨ node.isReplica = false ∧ node.smgrexists rel fork = false := by
  induction pairs generalizing total with
  | nil => cases hmem
  | cons entry pairs ih =>
    obtain ⟨rel', fork'⟩ := entry
    rw [Node.totalBlocks] at h
    rcases mem_cons.mp hmem with heq | hmem
    · obtain ⟨rfl, rfl⟩ := Prod.mk.inj heq
      rw [hnone] at h
      dsimp only at h
      split at h
      · split at h
        · next hunread => exact .inl hunread
        · cases h
      · next hreplica =>
        split at h
        · next hexists => exact .inr ⟨by simpa using hreplica, by simpa using hexists⟩
        · cases h
    · split at h
      · exact ih hmem h
      · split at h
        · split at h
          · exact ih hmem h
          · cases h
        · split at h
          · exact ih hmem h
          · cases h

omit [LinearOrder ρ] in
/-- The lookups cover every buffer to drop, and nothing else. -/
theorem plan_covers {ranges : List (Range ρ)} (hplan : node.plan request = some ranges) :
    (∀ r ∈ ranges, ∀ tag, r.Matches tag → request.Drops tag) ∧
    ∀ {slot : Nat → Option (Tag ρ)} {id : Nat} {tag : Tag ρ}, slot id = some tag →
      request.Drops tag → (∀ n, node.nblocks tag.rel tag.fork = some n → tag.block < n) →
      ForksExist node request slot →
      Exempt node tag ∨ ∃ r ∈ ranges, r.Matches tag ∧ tag.block < r.nForkBlock := by
  cases request with
  | relation rel forks =>
    obtain ⟨hvalid, hplan⟩ := Option.ite_none_right_eq_some.mp hplan
    obtain rfl := Option.some.inj hplan
    constructor
    · rintro r hr tag ⟨hrel, hfork, hblock⟩
      obtain ⟨⟨fork, first⟩, hmem, hr⟩ := mem_filterMap.mp hr
      dsimp only at hr
      split at hr
      · cases hr
      · obtain ⟨n, -, rfl⟩ := Option.map_eq_some_iff.mp hr
        exact ⟨hrel, first, hfork ▸ hmem, hblock⟩
    · rintro slot id tag - ⟨hrel, first, hmem, hblock⟩ hlength -
      by_cases hread : node.unread tag.fork = true
      · exact .inl hread
      · rw [Bool.not_eq_true] at hread
        subst hrel
        cases hn : node.nblocks tag.rel tag.fork with
        | none =>
          rw [blocksToInvalidate_eq_invalid hmem hread hn] at hvalid
          exact absurd rfl hvalid.1
        | some n =>
          right
          refine ⟨⟨tag.rel, tag.fork, n, first⟩, ?_, ⟨rfl, rfl, hblock⟩, hlength n hn⟩
          exact mem_filterMap.mpr ⟨(tag.fork, first), hmem, by simp [hread, hn]⟩
  | all rels =>
    simp only [Node.plan, Node.planAll] at hplan
    split at hplan
    · next total htotal =>
      obtain ⟨-, hplan⟩ := Option.ite_none_right_eq_some.mp hplan
      obtain rfl := Option.some.inj hplan
      have hpair : ∀ rel fork, (rel, fork) ∈ rels.flatMap (fun rel => allForks.map fun fork =>
          (rel, fork)) ↔ rel ∈ rels := by
        intro rel fork
        have hfork : fork ∈ allForks := by cases fork <;> simp [allForks]
        simp [hfork]
      constructor
      · rintro r hr tag ⟨hrel, -, -⟩
        obtain ⟨⟨rel, fork⟩, hmem, hr⟩ := mem_filterMap.mp hr
        obtain ⟨n, -, rfl⟩ := Option.map_eq_some_iff.mp hr
        have hin := (hpair rel fork).mp hmem
        rwa [show rel = tag.rel from hrel.symm] at hin
      · intro slot id tag htag hdrops hlength hexists
        have hmem := (hpair tag.rel tag.fork).mpr hdrops
        cases hn : node.nblocks tag.rel tag.fork with
        | none =>
          rcases known_of_totalBlocks hmem htotal hn with hread | ⟨hreplica, habsent⟩
          · exact .inl hread
          · rw [hexists hreplica id tag htag hdrops hn] at habsent
            cases habsent
        | some n =>
          right
          refine ⟨⟨tag.rel, tag.fork, n, 0⟩, ?_, ⟨rfl, rfl, Nat.zero_le _⟩, hlength n hn⟩
          exact mem_filterMap.mpr ⟨(tag.rel, tag.fork), hmem, by simp [hn]⟩
    · cases hplan

/-! ## The checks of the scan -/

/-- The locator that is found is the one of the tag, and every one of the request is found. -/
theorem findLocator_iff {rels : List ρ} (hnodup : rels.Nodup) {rel found : ρ} :
    Request.findLocator rels rel = some found ↔ rel ∈ rels ∧ found = rel := by
  have hsorted : (rels.mergeSort fun a b => decide (a ≤ b)).Pairwise fun a b =>
      decide (a < b) = true ∧ decide (b < a) = false := by
    have hle : (rels.mergeSort fun a b => decide (a ≤ b)).Pairwise fun a b =>
        decide (a ≤ b) = true :=
      pairwise_mergeSort
        (fun a b c hab hbc => by simp only [decide_eq_true_eq] at *; exact hab.trans hbc)
        (fun a b => by simpa using le_total a b) rels
    have hne : (rels.mergeSort fun a b => decide (a ≤ b)).Nodup :=
      (mergeSort_perm rels _).nodup_iff.mpr hnodup
    refine (hle.and hne).imp ?_
    rintro a b ⟨hab, hne⟩
    rw [decide_eq_true_eq] at hab
    have hlt := lt_of_le_of_ne hab hne
    exact ⟨decide_eq_true hlt, decide_eq_false hlt.asymm⟩
  rw [Request.findLocator]
  split
  · have hmem : Base.search (fun a b => decide (a < b))
        (rels.mergeSort fun a b => decide (a ≤ b)) rel = true ↔ rel ∈ rels := by
      rw [Base.search_iff_mem hsorted, (mergeSort_perm rels _).mem_iff]
    split
    · next h => simp [hmem.mp h, eq_comm]
    · next h =>
      refine iff_of_false (by simp) ?_
      exact fun hin => h (hmem.mpr hin.1)
  · constructor
    · intro h
      have heq : found = rel := by simpa using find?_some h
      exact ⟨heq ▸ mem_of_find?_eq_some h, heq⟩
    · rintro ⟨hmem, rfl⟩
      cases hfind : rels.find? (· = found) with
      | none => exact absurd (find?_eq_none.mp hfind found hmem) (by simp)
      | some x =>
        have hx : x = found := by simpa using find?_some hfind
        rw [hx]

theorem precheck_iff (hnodup : request.rels.Nodup) {rel found : ρ} :
    request.precheck rel = some found ↔ rel ∈ request.rels ∧ found = rel := by
  cases request with
  | relation rel' forks =>
    simp only [Request.precheck, Request.rels]
    split
    · next h => simp [h, eq_comm]
    · next h => simp [h]
  | all rels => exact findLocator_iff hnodup

/-- Under the lock, the buffer is dropped if and only if it is to be dropped. -/
theorem recheck_iff {tag : Tag ρ} {found : ρ} (hfound : found ∈ request.rels)
    (htag : tag.rel ∈ request.rels → tag.rel = found) :
    request.recheck found tag = true ↔ request.Drops tag := by
  cases request with
  | relation rel forks =>
    simp only [Request.recheck, Request.Drops, any_eq_true, Bool.and_eq_true, beq_iff_eq,
      decide_eq_true_eq, Prod.exists]
    constructor
    · rintro ⟨fork, first, hmem, ⟨hrel, hfork⟩, hblock⟩
      exact ⟨hrel, first, hfork ▸ hmem, hblock⟩
    · rintro ⟨hrel, first, hmem, hblock⟩
      exact ⟨tag.fork, first, hmem, ⟨hrel, rfl⟩, hblock⟩
  | all rels =>
    simp only [Request.recheck, Request.Drops, beq_iff_eq]
    exact ⟨fun h => h ▸ hfound, htag⟩

/-! ## What lies ahead -/

/-- The range drops the buffer when it gets there. -/
def Range.Covers (r : Range ρ) (tag : Tag ρ) : Prop := r.Matches tag ∧ tag.block < r.nForkBlock

/-- The buffer lies ahead of the backend. -/
def Ahead : Pc ρ → Nat → Tag ρ → Prop
  | .start, _, _ => True
  | .look [] _, _, _ => False
  | .look (r :: rs) block, _, tag =>
    (r.Covers tag ∧ block ≤ tag.block) ∨ ∃ r' ∈ rs, r'.Covers tag
  | .found [] _ _, _, _ => False
  | .found (r :: rs) block found, id, tag =>
    (r.Covers tag ∧ (block < tag.block ∨ block = tag.block ∧ id = found)) ∨
      ∃ r' ∈ rs, r'.Covers tag
  | .scan next, id, _ => next ≤ id
  | .scanLock next _, id, _ => next ≤ id
  | .done, _, _ => False

/-- The ranges of the backend drop only what is to be dropped, and the locator found is one of the
request. -/
def PcOk (request : Request ρ) (slot : Nat → Option (Tag ρ)) : Pc ρ → Prop
  | .look ranges _ | .found ranges _ _ => ∀ r ∈ ranges, ∀ tag, r.Matches tag → request.Drops tag
  | .scanLock id found => found ∈ request.rels ∧
      ∀ tag, slot id = some tag → tag.rel ∈ request.rels → tag.rel = found
  | _ => True

/-- What every run keeps of the pool. -/
structure Inv (node : Node ρ) (request : Request ρ) (s : State ρ) : Prop where
  bound : ∀ id tag, s.slot id = some tag → id < node.nBuffers
  unique : ∀ i j tag, s.slot i = some tag → s.slot j = some tag → i = j
  length : ∀ id tag n, s.slot id = some tag → tag.rel ∈ request.rels →
    node.nblocks tag.rel tag.fork = some n → tag.block < n
  exist : ForksExist node request s.slot
  shadow : ∀ id, s.slot id = s.shadow id ∨
    s.slot id = none ∧ ∃ tag, s.shadow id = some tag ∧ request.Drops tag
  ahead : ∀ id tag, s.slot id = some tag → request.Drops tag →
    Exempt node tag ∨ Ahead s.pc id tag
  pcOk : PcOk request s.slot s.pc

omit [LinearOrder ρ] in
theorem ForksExist.mono {slot slot' : Nat → Option (Tag ρ)} (h : ForksExist node request slot)
    (hsub : ∀ id tag, tag.rel ∈ request.rels → slot' id = some tag → slot id = some tag) :
    ForksExist node request slot' := by
  cases request with
  | relation rel forks => trivial
  | all rels =>
    intro hreplica id tag htag hmem hnone
    exact h hreplica id tag (hsub id tag hmem htag) hmem hnone

theorem lookup_eq_some {n id : Nat} {tag : Tag ρ} (h : s.lookup n tag = some id) :
    s.slot id = some tag := by
  simpa using find?_some h

theorem lookup_eq_none {n : Nat} {tag : Tag ρ} (h : s.lookup n tag = none) {id : Nat}
    (hid : id < n) :
    s.slot id ≠ some tag := by
  simpa using find?_eq_none.mp h id (mem_range.mpr hid)

omit [LinearOrder ρ] in
theorem Range.Matches.tag_eq {r : Range ρ} {tag : Tag ρ} {block : Nat} (h : r.Matches tag)
    (hblock : block = tag.block) : tag = ⟨r.rel, r.fork, block⟩ := by
  obtain ⟨hrel, hfork, -⟩ := h
  rw [← hrel, ← hfork, hblock]

theorem matchesRange_iff {r : Range ρ} {slot : Option (Tag ρ)} :
    State.matchesRange r slot = true ↔ ∃ tag, slot = some tag ∧ r.Matches tag := by
  cases slot <;> simp [State.matchesRange, Range.Matches, and_assoc]

namespace Inv

omit [LinearOrder ρ] in
theorem init {slot : Nat → Option (Tag ρ)} (hpool : Pool node slot)
    (hexist : ForksExist node request slot) : Inv node request (.init slot) where
  bound := hpool.bound
  unique := hpool.unique
  length id tag n h _ := hpool.length id tag n h
  exist := hexist
  shadow _ := .inl rfl
  ahead _ _ _ _ := .inr trivial
  pcOk := trivial

omit [LinearOrder ρ] in
/-- The backend moves on without dropping anything. -/
theorem setPc (h : Inv node request s) {pc pc' : Pc ρ} (hpc : s.pc = pc)
    (hahead : ∀ id tag, s.slot id = some tag → request.Drops tag → ¬Exempt node tag →
      Ahead pc id tag → Ahead pc' id tag) (hok : PcOk request s.slot pc') :
    Inv node request { s with pc := pc' } := by
  subst hpc
  refine { h with ahead := ?_, pcOk := hok }
  intro id tag htag hdrops
  by_cases hex : Exempt node tag
  · exact .inl hex
  · exact .inr (hahead id tag htag hdrops hex ((h.ahead id tag htag hdrops).resolve_left hex))

omit [LinearOrder ρ] in
/-- The backend drops a buffer that is to be dropped. -/
theorem invalidate (h : Inv node request s) {id : Nat} {old : Tag ρ} (hold : s.slot id = some old)
    (hdrops : request.Drops old) {pc pc' : Pc ρ} (hpc : s.pc = pc)
    (hahead : ∀ i tag, i ≠ id → Ahead pc i tag → Ahead pc' i tag)
    (hok : ∀ slot, PcOk request slot pc') :
    Inv node request { s.invalidate id with pc := pc' } := by
  subst hpc
  have hslot : ∀ i tag, (s.invalidate id).slot i = some tag → i ≠ id ∧ s.slot i = some tag := by
    intro i tag hi
    by_cases hne : i = id
    · subst hne
      simp [State.invalidate] at hi
    · exact ⟨hne, by simpa [State.invalidate, update_of_ne hne] using hi⟩
  refine ⟨fun i tag hi => h.bound i tag (hslot i tag hi).2, ?_, ?_, ?_, ?_, ?_, hok _⟩
  · exact fun i j tag hi hj => h.unique i j tag (hslot i tag hi).2 (hslot j tag hj).2
  · exact fun i tag n hi => h.length i tag n (hslot i tag hi).2
  · exact h.exist.mono fun i tag _ hi => (hslot i tag hi).2
  · intro i
    by_cases hi : i = id
    · subst hi
      right
      refine ⟨by simp [State.invalidate], ?_⟩
      rcases h.shadow i with heq | ⟨hnone, -⟩
      · exact ⟨old, heq ▸ hold, hdrops⟩
      · rw [hnone] at hold
        cases hold
    · simpa [State.invalidate, update_of_ne hi] using h.shadow i
  · intro i tag hi hdrop
    obtain ⟨hne, hi⟩ := hslot i tag hi
    by_cases hex : Exempt node tag
    · exact .inl hex
    · exact .inr (hahead i tag hne ((h.ahead i tag hi hdrop).resolve_left hex))

/-- Another backend evicts a buffer. -/
theorem evict (h : Inv node request s) {id : Nat} {tag : Option (Tag ρ)}
    (hs : s.evictStep node request id tag = some t) : Inv node request t := by
  obtain ⟨⟨hid, hall⟩, ⟨⟩⟩ := Option.ite_none_right_eq_some.mp hs
  have hnew : ∀ new, tag = some new → new.rel ∉ request.rels ∧ ∀ i, s.slot i ≠ some new := by
    rintro new rfl
    simp only [Option.all_some, Bool.and_eq_true, Bool.not_eq_true', Option.isNone_iff_eq_none,
      contains_eq_mem, decide_eq_false_iff_not] at hall
    refine ⟨hall.1, fun i hi => ?_⟩
    exact lookup_eq_none hall.2 (h.bound i new hi) hi
  have hslot : ∀ i x, update s.slot id tag i = some x →
      (i = id ∧ tag = some x) ∨ (i ≠ id ∧ s.slot i = some x) := by
    intro i x hi
    by_cases hne : i = id
    · subst hne
      exact .inl ⟨rfl, by simpa using hi⟩
    · exact .inr ⟨hne, by simpa [update_of_ne hne] using hi⟩
  -- a buffer of the relations was there before
  have hrel : ∀ i x, update s.slot id tag i = some x → x.rel ∈ request.rels →
      s.slot i = some x := by
    intro i x hi hx
    rcases hslot i x hi with ⟨-, htag⟩ | ⟨-, hi⟩
    · exact absurd hx (hnew x htag).1
    · exact hi
  refine ⟨?_, ?_, ?_, ?_, ?_, ?_, ?_⟩
  · intro i x hi
    rcases hslot i x hi with ⟨rfl, -⟩ | ⟨-, hi⟩
    · exact hid
    · exact h.bound i x hi
  · intro i j x hi hj
    rcases hslot i x hi with ⟨hiid, htag⟩ | ⟨-, hiold⟩ <;>
      rcases hslot j x hj with ⟨hjid, htag'⟩ | ⟨-, hjold⟩
    · rw [hiid, hjid]
    · exact absurd hjold ((hnew x htag).2 j)
    · exact absurd hiold ((hnew x htag').2 i)
    · exact h.unique i j x hiold hjold
  · exact fun i x n hi hx => h.length i x n (hrel i x hi hx) hx
  · exact h.exist.mono fun i x hx hi => hrel i x hi hx
  · intro i
    by_cases hi : i = id
    · subst hi
      simp
    · simpa [update_of_ne hi] using h.shadow i
  · intro i x hi hdrops
    exact h.ahead i x (hrel i x hi hdrops.mem_rels) hdrops
  · have hok := h.pcOk
    cases hpc : s.pc with
    | scanLock j found =>
      rw [hpc] at hok
      exact ⟨hok.1, fun x hx hmem => hok.2 x (hrel j x hx hmem) hmem⟩
    | look ranges block | found ranges block j => rwa [hpc] at hok
    | start | scan j | done => trivial

section

variable (h : Inv node request s)
include h

omit [LinearOrder ρ] in
theorem nextRange {pc : Pc ρ} (hpc : s.pc = pc) {rs : List (Range ρ)}
    (hahead : ∀ id tag, s.slot id = some tag → request.Drops tag → ¬Exempt node tag →
      Ahead pc id tag → ∃ r ∈ rs, r.Covers tag)
    (hok : ∀ r ∈ rs, ∀ tag, r.Matches tag → request.Drops tag) :
    Inv node request { s with pc := State.nextRange rs } := by
  cases rs with
  | nil =>
    refine h.setPc hpc ?_ trivial
    intro id tag htag hdrops hex hold
    obtain ⟨r, hr, -⟩ := hahead id tag htag hdrops hex hold
    cases hr
  | cons r rs =>
    refine h.setPc hpc ?_ hok
    intro id tag htag hdrops hex hold
    obtain ⟨r', hr', hcovers⟩ := hahead id tag htag hdrops hex hold
    rcases mem_cons.mp hr' with rfl | hr'
    · exact .inl ⟨hcovers, hcovers.1.2.2⟩
    · exact .inr ⟨r', hr', hcovers⟩

theorem dropStart (hpc : s.pc = .start)
    (hs : s.dropStep node request = some t) : Inv node request t := by
  simp only [dropStep, hpc] at hs
  split at hs <;> cases hs
  · next ranges hplan =>
    obtain ⟨honly, hall⟩ := plan_covers hplan
    refine h.nextRange hpc ?_ honly
    intro id tag htag hdrops hex _
    have hrel := hdrops.mem_rels
    obtain ⟨r, hr, hmatch, hlt⟩ := (hall htag hdrops (fun n => h.length id tag n htag hrel)
      h.exist).resolve_left hex
    exact ⟨r, hr, hmatch, hlt⟩
  · exact h.setPc hpc (fun id _ _ _ _ _ => Nat.zero_le id) trivial

/-- After the lookup of a block, the buffer with that block is the one that was found. -/
theorem dropLook {r : Range ρ} {rs : List (Range ρ)} {block : Nat}
    (hpc : s.pc = .look (r :: rs) block) (hs : s.dropStep node request = some t) :
    Inv node request t := by
  have hok := h.pcOk
  rw [hpc] at hok
  simp only [dropStep, hpc] at hs
  split at hs
  · split at hs <;> cases hs
    · next hnone =>
      refine h.setPc hpc (fun id tag htag _ _ hold => ?_) hok
      refine hold.imp_left fun ⟨hcovers, hle⟩ => ⟨hcovers, lt_of_le_of_ne hle fun heq => ?_⟩
      -- the block that was looked up is not in the pool
      exact lookup_eq_none hnone (h.bound id tag htag) (hcovers.1.tag_eq heq ▸ htag)
    · next id hsome =>
      refine h.setPc hpc (fun i tag htag _ _ hold => ?_) hok
      refine hold.imp_left fun ⟨hcovers, hle⟩ => ⟨hcovers, ?_⟩
      refine (Nat.eq_or_lt_of_le hle).symm.imp_right fun heq => ⟨heq, ?_⟩
      exact h.unique i id tag htag (hcovers.1.tag_eq heq ▸ lookup_eq_some hsome)
  · next hge =>
    cases hs
    refine h.nextRange hpc ?_ fun r' hr' => hok r' (mem_cons_of_mem _ hr')
    rintro id tag - - - (⟨⟨-, hlt⟩, hle⟩ | hrest)
    · omega
    · exact hrest

theorem dropFound {r : Range ρ} {rs : List (Range ρ)} {block id : Nat}
    (hpc : s.pc = .found (r :: rs) block id) (hs : s.dropStep node request = some t) :
    Inv node request t := by
  have hok := h.pcOk
  rw [hpc] at hok
  simp only [dropStep, hpc] at hs
  cases hs
  split
  · next hcheck =>
    obtain ⟨old, hslot, hmatch⟩ := matchesRange_iff.mp hcheck
    refine h.invalidate hslot (hok r mem_cons_self old hmatch) hpc ?_ fun _ => hok
    rintro i tag hne (⟨hcovers, hlt | ⟨-, rfl⟩⟩ | hrest)
    · exact .inl ⟨hcovers, hlt⟩
    · exact absurd rfl hne
    · exact .inr hrest
  · next hcheck =>
    refine h.setPc hpc ?_ hok
    rintro i tag htag - - (⟨hcovers, hlt | ⟨-, rfl⟩⟩ | hrest)
    · exact .inl ⟨hcovers, hlt⟩
    · exact absurd (matchesRange_iff.mpr ⟨tag, htag, hcovers.1⟩) hcheck
    · exact .inr hrest

theorem dropScan (hnodup : request.rels.Nodup) {id : Nat}
    (hpc : s.pc = .scan id) (hs : s.dropStep node request = some t) : Inv node request t := by
  simp only [dropStep, hpc] at hs
  split at hs
  · split at hs <;> cases hs
    · next hnone =>
      refine h.setPc hpc (fun i tag htag hdrops _ hold => lt_of_le_of_ne hold ?_) trivial
      rintro rfl
      rw [htag, Option.bind_some, (precheck_iff hnodup).mpr ⟨hdrops.mem_rels, rfl⟩] at hnone
      cases hnone
    · next found hsome =>
      obtain ⟨tag, htag, hcheck⟩ := Option.bind_eq_some_iff.mp hsome
      obtain ⟨hmem, rfl⟩ := (precheck_iff hnodup).mp hcheck
      refine h.setPc hpc (fun i _ _ _ _ hold => hold) ⟨hmem, fun other hother _ => ?_⟩
      rw [htag] at hother
      rw [← Option.some.inj hother]
  · next hge =>
    cases hs
    refine h.setPc hpc (fun i tag htag _ _ hold => hge ?_) trivial
    exact lt_of_le_of_lt hold (h.bound i tag htag)

theorem dropScanLock {id : Nat} {found : ρ}
    (hpc : s.pc = .scanLock id found) (hs : s.dropStep node request = some t) :
    Inv node request t := by
  have hok := h.pcOk
  rw [hpc] at hok
  simp only [dropStep, hpc] at hs
  cases hs
  have hpass : ∀ i tag, i ≠ id → Ahead (.scanLock id found) i tag →
      Ahead (.scan (id + 1)) i tag :=
    fun i tag hne hold => lt_of_le_of_ne hold hne.symm
  split
  · next hany =>
    obtain ⟨old, hold, hcheck⟩ := (Option.any_eq_true _ _).mp hany
    exact h.invalidate hold ((recheck_iff hok.1 (hok.2 old hold)).mp hcheck) hpc hpass
      fun _ => trivial
  · next hany =>
    refine h.setPc hpc (fun i tag htag hdrops _ => hpass i tag ?_) trivial
    rintro rfl
    exact hany ((Option.any_eq_true _ _).mpr
      ⟨tag, htag, (recheck_iff hok.1 (hok.2 tag htag)).mpr hdrops⟩)

theorem drop (hnodup : request.rels.Nodup)
    (hs : s.dropStep node request = some t) : Inv node request t := by
  cases hpc : s.pc with
  | start => exact h.dropStart hpc hs
  | look ranges block =>
    cases ranges with
    | nil =>
      simp only [dropStep, hpc] at hs
      cases hs
      exact h.setPc hpc (fun id tag _ _ _ hold => hold) trivial
    | cons r rs => exact h.dropLook hpc hs
  | found ranges block id =>
    cases ranges with
    | nil =>
      simp only [dropStep, hpc] at hs
      cases hs
      exact h.setPc hpc (fun id tag _ _ _ hold => hold) trivial
    | cons r rs => exact h.dropFound hpc hs
  | scan id => exact h.dropScan hnodup hpc hs
  | scanLock id found => exact h.dropScanLock hpc hs
  | done =>
    simp only [dropStep, hpc] at hs
    cases hs

end

theorem step (h : Inv node request s) (hnodup : request.rels.Nodup) {op : Op ρ}
    (hs : step node request s op = some t) : Inv node request t := by
  cases op with
  | drop => exact h.drop hnodup hs
  | evict id tag => exact h.evict hs

omit [LinearOrder ρ] in
/-- At the end no buffer lies ahead. -/
theorem left (h : Inv node request s) (hdone : s.pc = .done) : Left node request s := by
  intro id
  cases hshadow : s.shadow id with
  | none =>
    rcases h.shadow id with heq | ⟨hnone, -⟩
    · exact heq.trans hshadow
    · exact hnone
  | some tag =>
    rcases h.shadow id with heq | ⟨hnone, old, hold, hdrops⟩
    · rw [hshadow] at heq
      refine ⟨fun _ => heq, fun hdrops => .inr ⟨?_, heq⟩⟩
      have hahead := h.ahead id tag heq hdrops
      rw [hdone] at hahead
      exact hahead.resolve_right fun h => h
    · rw [hshadow] at hold
      obtain rfl := Option.some.inj hold
      exact ⟨fun hnot => absurd hdrops hnot, fun _ => .inl hnone⟩

end Inv

omit [LinearOrder ρ] in
theorem work_nextRange (rs : List (Range ρ)) : (State.nextRange rs).work node request ≤
    (rs.map fun r => 2 * (r.nForkBlock - r.firstDelBlock) + 2).sum := by
  cases rs with
  | nil => exact le_refl 0
  | cons r rs =>
    simp only [State.nextRange, Pc.work, map_cons, sum_cons]
    omega

/-- A step of the dropping backend is always possible before the end, and there is less to do after
it. -/
theorem exists_dropStep (hpc : s.pc ≠ .done) : ∃ t, step node request s .drop = some t ∧
    t.pc.work node request < s.pc.work node request := by
  simp only [step, dropStep]
  cases h : s.pc with
  | start =>
    cases hplan : node.plan request with
    | none => exact ⟨_, rfl, by simp [Pc.work, hplan]⟩
    | some ranges =>
      refine ⟨_, rfl, lt_of_le_of_lt (work_nextRange ranges) ?_⟩
      simp only [Pc.work, hplan]
      omega
  | look ranges block =>
    cases ranges with
    | nil => exact ⟨_, rfl, by simp [Pc.work]⟩
    | cons r rs =>
      dsimp only
      split
      · next hlt =>
        cases s.lookup node.nBuffers ⟨r.rel, r.fork, block⟩ with
        | none | some id =>
          refine ⟨_, rfl, ?_⟩
          simp only [Pc.work]
          omega
      · refine ⟨_, rfl, lt_of_le_of_lt (work_nextRange rs) ?_⟩
        simp only [Pc.work]
        omega
  | found ranges block id =>
    cases ranges with
    | nil => exact ⟨_, rfl, by simp [Pc.work]⟩
    | cons r rs =>
      refine ⟨_, rfl, ?_⟩
      simp only [Pc.work]
      omega
  | scan id =>
    dsimp only
    split
    · next hlt =>
      cases (s.slot id).bind fun tag => request.precheck tag.rel with
      | none | some found =>
        refine ⟨_, rfl, ?_⟩
        simp only [Pc.work]
        omega
    · exact ⟨_, rfl, by simp [Pc.work]⟩
  | scanLock id found =>
    refine ⟨_, rfl, ?_⟩
    simp only [Pc.work]
    omega
  | done => exact absurd h hpc

/-- The two paths leave the same buffers, and both come to their end. -/
theorem drop_leaves {slot : Nat → Option (Tag ρ)} (hpool : Pool node slot)
    (hexist : ForksExist node request slot) (hnodup : request.rels.Nodup)
    (run : Reaches (step node request) (fun _ _ => True) (.init slot) s) :
    (s.pc = .done → Left node request s) ∧
    (s.pc ≠ .done → ∃ t, step node request s .drop = some t ∧
      t.pc.work node request < s.pc.work node request) := by
  have hinv : Inv node request s :=
    run.invariant (Inv node request) (.init hpool hexist) fun _ _ _ h _ hs => h.step hnodup hs
  exact ⟨hinv.left, exists_dropStep⟩

/-- One relation with a main fork of one block. -/
def oneBlock : Node Nat where
  nBuffers := 64
  isReplica := false
  forceUnlogged := false
  nblocks
    | 1, .main => some 1
    | _, _ => none
  smgrexists _ fork := fork == .main

/-- Its block, and a page of another fork or relation. -/
def twoPages (other : Tag Nat) : Nat → Option (Tag Nat)
  | 0 => some ⟨1, .main, 0⟩
  | 1 => some other
  | _ => none

/-- The relation is dropped by lookups. -/
def dropped (other : Tag Nat) : State Nat :=
  ⟨Function.update (twoPages other) 0 none, .done, twoPages other⟩

theorem reaches_dropped (other : Tag Nat) : Reaches (step oneBlock (.all [1])) (fun _ _ => True)
    (.init (twoPages other)) (dropped other) := by
  have hexec : exec (step oneBlock (.all [1])) (.init (twoPages other))
      [.drop, .drop, .drop, .drop] = some (dropped other) := rfl
  exact reaches_of_exec hexec fun _ _ _ => trivial

theorem pool_twoPages {other : Tag Nat} (hne : other ≠ ⟨1, .main, 0⟩)
    (hfork : oneBlock.nblocks other.rel other.fork = none) : Pool oneBlock (twoPages other) := by
  have hcases : ∀ id tag, twoPages other id = some tag →
      id = 0 ∧ tag = ⟨1, .main, 0⟩ ∨ id = 1 ∧ tag = other := by
    intro id tag h
    match id with
    | 0 => exact .inl ⟨rfl, (Option.some.inj h).symm⟩
    | 1 => exact .inr ⟨rfl, (Option.some.inj h).symm⟩
    | _ + 2 => cases h
  refine ⟨?_, ?_, ?_⟩
  · intro id tag h
    rcases hcases id tag h with ⟨rfl, -⟩ | ⟨rfl, -⟩ <;> decide
  · intro i j tag hi hj
    rcases hcases i tag hi with ⟨rfl, rfl⟩ | ⟨rfl, rfl⟩ <;>
      rcases hcases j _ hj with ⟨rfl, heq⟩ | ⟨rfl, heq⟩
    · rfl
    · exact absurd heq.symm hne
    · exact absurd heq hne
    · rfl
  · intro id tag n h hn
    rcases hcases id tag h with ⟨-, rfl⟩ | ⟨-, rfl⟩
    · cases hn
      decide
    · rw [hfork] at hn
      cases hn

/-- Relation 1 is dropped, and the page of relation 2 is left. -/
theorem drop_leaves_other : Reaches (step oneBlock (.all [1])) (fun _ _ => True)
    (.init (twoPages ⟨2, .main, 0⟩)) (dropped ⟨2, .main, 0⟩) ∧
    Left oneBlock (.all [1]) (dropped ⟨2, .main, 0⟩) := by
  have hne : (⟨2, .main, 0⟩ : Tag Nat) ≠ ⟨1, .main, 0⟩ := by decide
  have hexist : ForksExist oneBlock (.all [1]) (twoPages ⟨2, .main, 0⟩) := by
    intro _ id tag htag hmem hnone
    match id with
    | 0 =>
      cases htag
      cases hnone
    | 1 =>
      cases htag
      exact absurd hmem (by decide)
    | _ + 2 => cases htag
  exact ⟨reaches_dropped _, (drop_leaves (pool_twoPages hne rfl) hexist (by decide)
    (reaches_dropped _)).1 rfl⟩

/-- A page of a fork that does not exist stays after the lookups. -/
theorem drop_leaves_lost_fork : ∃ (node : Node Nat) (request : Request Nat)
    (slot : Nat → Option (Tag Nat)) (s : State Nat), Pool node slot ∧ request.rels.Nodup ∧
      Reaches (step node request) (fun _ _ => True) (.init slot) s ∧ s.pc = .done ∧
      ¬Left node request s := by
  have hne : (⟨1, .visibilitymap, 0⟩ : Tag Nat) ≠ ⟨1, .main, 0⟩ := by decide
  refine ⟨oneBlock, .all [1], twoPages ⟨1, .visibilitymap, 0⟩, dropped ⟨1, .visibilitymap, 0⟩,
    pool_twoPages hne rfl, by decide, reaches_dropped _, rfl, fun hleft => ?_⟩
  rcases (hleft 1).2 mem_cons_self with hnone | ⟨hexempt, -⟩
  · cases hnone
  · cases hexempt

end Polar.DropBuffers
