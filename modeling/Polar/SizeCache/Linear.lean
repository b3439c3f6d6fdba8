import Polar.SizeCache.Primary

/-!
# Lookups on the primary

A lookup returns a length that its fork has had since the lookup began. The length that is read from
a file may not be put into the cache after the entry of the relation was dropped and before its
files are unlinked: nothing would remove it from the cache again.
-/

namespace Polar.SizeCache.Primary

open Option

variable {n : Nat} {par : Params}

/-- The entry whose mapping the process is about to remove. -/
def removing : Pc → Option Nat
  | .evictRemove _ e _ | .dropRemove _ e => some e
  | _ => none

theorem Pc.Busy.cases {rel e : Nat} {pc : Pc} (h : pc.Busy rel e) :
    removing pc = some e ∨ ∃ t, pc = .putFill t e := by
  cases pc <;> simp only [Pc.Busy] at h
  · exact .inl (by simp [removing, h.1])
  · exact .inr ⟨_, by rw [h.1]⟩
  · exact .inl (by simp [removing, h.1])

/-- What a step in the cache does to the flags of the entries. -/
structure Flags (c c' : Cache n) (p : Fin n) : Prop where
  valid : ∀ e, (c'.entries e).valid = true →
    (c.entries e).valid = true ∨ ∃ t, c.pc p = .putFill t e
  locked : ∀ e, (c'.entries e).locked = true →
    (c.entries e).locked = true ∨ ∃ t, c.pc p = .putEnter t e
  removing : ∀ e, removing (c'.pc p) = some e →
    (c'.entries e).valid = false ∧ (c'.entries e).locked = false

namespace Flags

variable {c c' : Cache n} {p : Fin n}

/-- A step that leaves the flags alone. -/
theorem same {d : Cache n} {pc : Pc} (hflags : ∀ e, (d.entries e).valid = (c.entries e).valid ∧
      (d.entries e).locked = (c.entries e).locked)
    (hpc : Primary.removing pc = none) : Flags c (d.goto p pc) p where
  valid e h := .inl ((hflags e).1 ▸ h)
  locked e h := .inl ((hflags e).2 ▸ h)
  removing e h := by
    rw [Cache.pc_goto_self, hpc] at h
    cases h

theorem setEntry {d : Cache n} {pc : Pc} {e : Nat} {entry : Entry} (hd : d.entries = c.entries)
    (hvalid : entry.valid = true → (c.entries e).valid = true ∨ ∃ t, c.pc p = .putFill t e)
    (hlocked : entry.locked = true → (c.entries e).locked = true ∨ ∃ t, c.pc p = .putEnter t e)
    (hpc : ∀ e', Primary.removing pc = some e' →
      e' = e ∧ entry.valid = false ∧ entry.locked = false) :
    Flags c ((d.setEntry e entry).goto p pc) p where
  valid e' h := by
    by_cases he : e' = e
    · subst he
      rw [Cache.entries_goto, Cache.entries_setEntry_self] at h
      exact hvalid h
    · rw [Cache.entries_goto, Cache.entries_setEntry_of_ne _ _ he, hd] at h
      exact .inl h
  locked e' h := by
    by_cases he : e' = e
    · subst he
      rw [Cache.entries_goto, Cache.entries_setEntry_self] at h
      exact hlocked h
    · rw [Cache.entries_goto, Cache.entries_setEntry_of_ne _ _ he, hd] at h
      exact .inl h
  removing e' h := by
    rw [Cache.pc_goto_self] at h
    obtain ⟨rfl, hentry⟩ := hpc e' h
    rwa [Cache.entries_goto, Cache.entries_setEntry_self]

theorem goto {pc : Pc} (hpc : Primary.removing pc = none := by rfl) : Flags c (c.goto p pc) p :=
  same (fun _ => ⟨rfl, rfl⟩) hpc

theorem of_searchStep (hs : searchStep par c p = some c') : Flags c c' p := by
  unfold searchStep at hs
  repeat' split at hs
  all_goals cases hs
  all_goals exact same (fun _ => ⟨rfl, rfl⟩) rfl

theorem of_write {e m : Nat} {fork : Fork} {dirty : Bool} {pc : Pc}
    (hpc : Primary.removing pc = none) :
    Flags c ((c.write e fork m dirty).goto p pc) p :=
  setEntry rfl .inl .inl (by simp [hpc])

theorem of_updateStep {file : Nat → Fork → Option Nat} (hs : updateStep par file c p = some c') :
    Flags c c' p := by
  unfold updateStep at hs
  repeat' split at hs
  all_goals cases hs
  all_goals first | exact goto | exact of_write rfl

/-- An entry is invalidated, before its mapping is removed. -/
theorem clear {e : Nat} {entry : Entry} {pc : Pc} (hunlocked : ¬ (c.entries e).locked = true)
    (hvalid : entry.valid = false) (hlocked : entry.locked = (c.entries e).locked)
    (hpc : Primary.removing pc = some e) : Flags c ((c.setEntry e entry).goto p pc) p := by
  refine setEntry rfl (by simp [hvalid]) (fun h => .inl (hlocked ▸ h)) fun e' he => ?_
  rw [hpc] at he
  exact ⟨(some.inj he).symm, hvalid, hlocked.trans (by simpa using hunlocked)⟩

theorem of_evictStep {pick : Nat} (hs : evictStep par c p pick = some c') : Flags c c' p := by
  unfold evictStep at hs
  repeat' split at hs
  all_goals cases hs
  all_goals first | exact goto | exact clear ‹_› rfl rfl rfl | exact same (fun _ => ⟨rfl, rfl⟩) rfl

theorem of_putStep (hs : putStep par c p = some c') : Flags c c' p := by
  have hnext (t : Task) : Primary.removing t.next = none := by cases t <;> rfl
  unfold putStep at hs
  split at hs
  · split at hs <;> cases hs
    exact goto
  · next t e hpc =>
    obtain ⟨-, hs⟩ := ite_none_left_eq_some.mp hs
    repeat' split at hs
    all_goals cases hs
    · exact goto
    · exact setEntry rfl .inl .inl (by simp [hnext])
    · exact setEntry rfl .inl (fun _ => .inr ⟨t, hpc⟩) (by simp [Primary.removing])
  · next t e hpc =>
    cases hs
    exact setEntry rfl (fun _ => .inr ⟨t, hpc⟩) (by simp) (by simp [hnext])
  · cases hs

theorem of_dropStep (hs : dropStep par c p = some c') : Flags c c' p := by
  unfold dropStep at hs
  repeat' split at hs
  all_goals cases hs
  all_goals first | exact goto | exact clear ‹_› rfl rfl rfl | exact same (fun _ => ⟨rfl, rfl⟩) rfl

theorem of_cacheStep {file : Nat → Fork → Option Nat} {pick : Nat}
    (hs : cacheStep par file c p pick = some c') : Flags c c' p := by
  unfold cacheStep at hs
  rcases or_eq_some_iff.mp hs with hs | ⟨-, hs⟩
  · exact of_searchStep hs
  rcases or_eq_some_iff.mp hs with hs | ⟨-, hs⟩
  · exact of_updateStep hs
  rcases or_eq_some_iff.mp hs with hs | ⟨-, hs⟩
  · exact of_evictStep hs
  rcases or_eq_some_iff.mp hs with hs | ⟨-, hs⟩
  · exact of_putStep hs
  · exact of_dropStep hs

end Flags

/-- While a mapping is being removed, nobody takes its entry. -/
def Unmapping (c : Cache n) : Prop :=
  ∀ q e, removing (c.pc q) = some e → (c.entries e).valid = false ∧ (c.entries e).locked = false

namespace Unmapping

variable {c c' : Cache n} {p : Fin n}

theorem goto {pc : Pc} (h : Unmapping c) (hpc : removing pc = none) : Unmapping (c.goto p pc) := by
  intro q e hq
  by_cases hqp : q = p
  · subst hqp
    rw [Cache.pc_goto_self, hpc] at hq
    cases hq
  · rw [Cache.pc_goto_of_ne _ _ _ hqp] at hq
    exact h q e hq

theorem cacheStep {file : Nat → Fork → Option Nat} {pick : Nat}
    {good : Nat → Fork → Nat → Prop} {acc : Fin n → Nat → Prop} (hcore : Core par.part good acc c)
    (h : Unmapping c) (hfree : ∀ t e, c.pc p = .putEnter t e → ∀ q, removing (c.pc q) ≠ some e)
    (hs : cacheStep par file c p pick = some c') : Unmapping c' := by
  have hflags := Flags.of_cacheStep hs
  intro q e hq
  by_cases hqp : q = p
  · subst hqp
    exact hflags.removing e hq
  · rw [(follows_of_cacheStep hs).1 q hqp] at hq
    obtain ⟨hvalid, hlocked⟩ := h q e hq
    constructor
    · refine Bool.eq_false_iff.mpr fun hvalid' => ?_
      rcases hflags.valid e hvalid' with hold | ⟨t, hpc⟩
      · rw [hvalid] at hold
        cases hold
      · have hp : PcOk good (acc p) c (.putFill t e) := hpc ▸ hcore.pcs p
        exact absurd hp.2.1 (by simp [hlocked])
    · refine Bool.eq_false_iff.mpr fun hlocked' => ?_
      rcases hflags.locked e hlocked' with hold | ⟨t, hpc⟩
      · rw [hlocked] at hold
        cases hold
      · exact hfree t e hpc q hq

end Unmapping

/-- A process reads the length of a file only while the file is not about to be unlinked, and takes
an entry only while its mapping is not about to be removed. -/
def State.Free (s : State n) : Pc → Prop
  | .sample rel _ _ => s.Linked rel
  | .putEnter _ e => ∀ q, removing (s.cache.pc q) ≠ some e
  | _ => True

/-- Every step in the cache is free in this sense. -/
def Undisturbed (s : State n) : Op n → Prop
  | .cache p _ => s.Free (s.cache.pc p)
  | _ => True

/-- Every lookup returns a length that its fork has had since it began, and a valid entry has one
mapping. -/
structure Linear (s : State n) : Prop where
  returned : ∀ p rel fork m, s.cache.pc p = .returned rel fork m → m ∈ s.seen p
  unique : ∀ rel rel' e, s.cache.mapping rel = some e → s.cache.mapping rel' = some e →
    (s.cache.entries e).valid = true → rel = rel'

/-- Every step keeps the invariant. -/
theorem Inv.step {optimize : Bool} {s t : State n} {op : Op n} (h : Inv par s)
    (hok : Undisturbed s op) (hs : s.step par optimize op = some t) : Inv par t := by
  cases op <;> simp only [State.step] at hs
  case lookup p rel fork =>
    split at hs
    · next hidle =>
      cases hs
      exact h.lookup hidle
    · cases hs
  case resize p rel fork nblocks =>
    split at hs
    · next hfree =>
      obtain ⟨old, hold, rfl⟩ := map_eq_some_iff.mp hs
      exact h.resize hfree.1 hfree.2 hold
    · cases hs
  case create p rel fork =>
    split at hs
    · next hfree =>
      split at hs <;> cases hs
      · have hprior : (s.setLength rel fork 0).setPrior rel fork none = s.setLength rel fork 0 := by
          simp [State.setPrior, State.setLength, setFork_eq_self (h.prior_eq_none hfree.2.1 fork)]
        have hresize := h.resize (m := 0) hfree.1 hfree.2.1 hfree.2.2
        rwa [hprior] at hresize
      · exact h.create hfree.2.1 hfree.2.2
    · cases hs
  case drop p rel =>
    split at hs
    · next hfree =>
      cases hs
      exact h.drop hfree.1 hfree.2
    · cases hs
  case cache p pick =>
    obtain ⟨c, hc, rfl⟩ := map_eq_some_iff.mp hs
    by_cases hstore : ∃ rel fork m e k, s.cache.pc p = .store (.resize rel fork m) e k
    · obtain ⟨rel, fork, m, e, k, hpc⟩ := hstore
      rw [cacheStep_eq_of_store_resize hpc hc, hpc]
      exact h.store hpc
    · have hsame : s.stored (s.cache.pc p) = s := by
        unfold State.stored
        split
        · next hpc => exact absurd ⟨_, _, _, _, _, hpc⟩ hstore
        · rfl
      rw [hsame]
      refine h.cache hc (fun rel fork m e k hpc => hstore ⟨rel, fork, m, e, k, hpc⟩) ?_
      intro rel fork e hpc
      simpa only [Undisturbed, hpc, State.Free] using hok
  case finish p => exact h.finish hs
  case forget p rel =>
    cases hs
    exact h.forget

theorem Unmapping.step {optimize : Bool} {s t : State n} {op : Op n} (hinv : Inv par s)
    (h : Unmapping s.cache) (hok : Undisturbed s op) (hs : s.step par optimize op = some t) :
    Unmapping t.cache := by
  cases op <;> simp only [State.step] at hs
  case lookup p rel fork =>
    split at hs <;> cases hs
    exact h.goto rfl
  case resize p rel fork nblocks =>
    split at hs
    · obtain ⟨old, -, rfl⟩ := map_eq_some_iff.mp hs
      exact Unmapping.goto h rfl
    · cases hs
  case create p rel fork =>
    split at hs
    · split at hs <;> cases hs
      · exact Unmapping.goto h rfl
      · exact h
    · cases hs
  case drop p rel =>
    split at hs <;> cases hs
    exact Unmapping.goto h rfl
  case cache p pick =>
    obtain ⟨c, hc, rfl⟩ := map_eq_some_iff.mp hs
    refine Unmapping.cacheStep hinv.core h (fun t e hpc => ?_) hc
    simpa only [Undisturbed, hpc, State.Free] using hok
  case finish p =>
    simp only [State.finish] at hs
    split at hs <;> cases hs <;> exact Unmapping.goto h rfl
  case forget p rel =>
    cases hs
    intro q e hq
    exact h q e (by rwa [Cache.pc_setRef] at hq)

theorem Linear.of_inv {s : State n} (h : Inv par s) (hun : Unmapping s.cache) : Linear s where
  returned p rel fork m hpc := by
    have hp : PcOk s.Good (s.Acc p) s.cache (.returned rel fork m) := hpc ▸ h.core.pcs p
    exact hp
  unique rel rel' e hmap hmap' hvalid := by
    -- A process that is about to remove a mapping, or to fill an entry, has an invalid entry.
    have howns {r : Nat} (hr : s.cache.mapping r = some e) : s.cache.Owns r e := by
      rcases h.core.mapped r e hr with hown | ⟨q, hq⟩
      · exact hown
      · rcases Pc.Busy.cases hq with hrem | ⟨t, hpc⟩
        · exact absurd (hun q e hrem).1 (by simp [hvalid])
        · have hp : PcOk s.Good (s.Acc q) s.cache (.putFill t e) := hpc ▸ h.core.pcs q
          exact absurd hp.2.2.2 (by simp [hvalid])
    exact (howns hmap).2.symm.trans (howns hmap').2

/-- In every run in which no length is read from a file that is about to be unlinked, and no entry
is taken while its mapping is about to be removed. -/
theorem cache_linear (par : Params) (optimize : Bool) (file : Nat → Fork → Option Nat) (s : State n)
    (run : Reaches (State.step par optimize) Undisturbed (State.init n file) s) : Linear s := by
  have h : Inv par s ∧ Unmapping s.cache := by
    refine run.invariant (fun s => Inv par s ∧ Unmapping s.cache) ⟨.init file, ?_⟩
      fun _ _ _ h hok hs => ⟨h.1.step hok hs, h.2.step h.1 hok hs⟩
    intro q e hq
    simp [State.init, Cache.init, Cache.pc, removing] at hq
  exact .of_inv h.1 h.2

instance (s : State n) : (pc : Pc) → Decidable (s.Free pc)
  | .sample rel _ _ => inferInstanceAs (Decidable (∀ q, s.cache.pc q ≠ .dropped rel))
  | .putEnter _ e => inferInstanceAs (Decidable (∀ q, removing (s.cache.pc q) ≠ some e))
  | .idle | .readRef _ _ | .checkRef _ _ _ _ | .searchMapping _ _ | .returned _ _ _ | .find _
  | .store _ _ _ | .resized _ _ | .sweep _ | .evictLock _ _ _ | .evictClear _ _ _
  | .evictRemove _ _ _ | .putLock _ _ | .putFill _ _ | .dropLock _ | .dropClear _ _
  | .dropRemove _ _ | .dropped _ => .isTrue trivial

instance (s : State n) : (op : Op n) → Decidable (Undisturbed s op)
  | .cache p _ => inferInstanceAs (Decidable (s.Free (s.cache.pc p)))
  | .lookup _ _ _ | .resize _ _ _ _ | .create _ _ _ | .drop _ _ | .finish _ | .forget _ _ =>
    .isTrue trivial

/-- A cache with one entry, and relations of five blocks. -/
def onePar : Params := ⟨fun rel => rel, 1⟩

def fiveBlocks (rel : Nat) (fork : Fork) : Option Nat :=
  if rel ≤ 3 ∧ fork = .main then some 5 else none

/-- The first process looks up the length of the relation, and reads it from the file. -/
def missedLookup : List (Op 2) :=
  .lookup 0 1 .main :: List.replicate 10 (.cache 0 0) ++ [.finish 0]

/-- A lookup by the pointer finds the length after an extension. -/
theorem cache_linear_extend : ∃ s : State 2,
    Reaches (State.step onePar false) Undisturbed (State.init 2 fiveBlocks) s ∧ Linear s ∧
      s.cache.pc 0 = .returned 1 .main 6 := by
  obtain ⟨s, run, hview⟩ := exists_reaches_tested (State.step onePar false) Undisturbed
    (State.init 2 fiveBlocks) (missedLookup ++ [.lookup 0 1 .main, .cache 0 0, .cache 0 0,
      .finish 0, .resize 1 1 .main 6, .cache 1 0, .cache 1 0, .lookup 0 1 .main, .cache 0 0,
      .cache 0 0]) (·.cache.pc 0 = .returned 1 .main 6) (by decide +kernel)
  exact ⟨s, run, cache_linear _ _ _ s run, hview⟩

/-- The length of a relation that is being dropped is put into the cache again before its file is
unlinked: a lookup of the next relation of that name returns it. An entry that is being evicted is
taken by another relation before its mapping is removed: two mappings point to it. -/
theorem cache_not_linear :
    (¬ ∀ (n : Nat) (par : Params) (optimize : Bool) (file : Nat → Fork → Option Nat) (s : State n),
      Reaches (State.step par optimize) (fun _ _ => True) (State.init n file) s →
      ∀ p rel fork m, s.cache.pc p = .returned rel fork m → m ∈ s.seen p) ∧
    ¬ ∀ (n : Nat) (par : Params) (optimize : Bool) (file : Nat → Fork → Option Nat) (s : State n),
      Reaches (State.step par optimize) (fun _ _ => True) (State.init n file) s →
      ∀ rel rel' e, s.cache.mapping rel = some e → s.cache.mapping rel' = some e →
        (s.cache.entries e).valid = true → rel = rel' := by
  constructor
  · intro hall
    obtain ⟨s, run, hpc, hseen⟩ := exists_reaches_any (State.step onePar false)
      (State.init 2 fiveBlocks) ([.drop 1 1, .cache 1 0] ++ missedLookup ++ [.finish 1,
        .create 1 1 .main, .lookup 0 1 .main, .cache 0 0, .cache 0 0])
      (fun s => s.cache.pc 0 = .returned 1 .main 5 ∧ s.seen 0 = [0]) (by decide +kernel)
    have hmem := hall 2 onePar false fiveBlocks s run 0 1 .main 5 hpc
    simp [hseen] at hmem
  · intro hall
    obtain ⟨s, run, hone, hthree, hvalid⟩ := exists_reaches_any (State.step onePar false)
      (State.init 2 fiveBlocks) (missedLookup ++ .lookup 1 2 .main :: List.replicate 6 (.cache 1 0) ++
        .lookup 0 3 .main :: List.replicate 7 (.cache 0 0))
      (fun s => s.cache.mapping 1 = some 0 ∧ s.cache.mapping 3 = some 0 ∧
        (s.cache.entries 0).valid = true) (by decide +kernel)
    cases hall 2 onePar false fiveBlocks s run 1 3 0 hone hthree hvalid

end Polar.SizeCache.Primary
