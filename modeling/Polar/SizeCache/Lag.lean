import Polar.SizeCache.Replica

/-!
# The cache of a replica and the records that it has replayed

A record that is replayed updates a length that is in the cache. When there is none, the record
leaves no mark, and a lookup that has read the file before may store the old length after it.
-/

namespace Polar.SizeCache.Replica

open List Option

variable {n : Nat} {par : Params} {wal : Wal} {startup : Fin n} {s t : State n}

/-- The fork whose length the process has read from the file and not yet stored. -/
def sampled : Pc → Option (Nat × Fork)
  | .store (.lookup rel fork) _ _ => some (rel, fork)
  | _ => none

/-- `polar_rsc_update_if_exists` stores the length in the entry of the relation, or nothing. -/
theorem updateIfExists_spec {good : Nat → Fork → Nat → Prop} {acc : Fin n → Nat → Prop}
    {c c' : Cache n} {rel m : Nat} {fork : Fork} {cond : Nat → Nat → Bool}
    (h : Core par.part good acc c) (hs : State.updateIfExists par c rel fork m cond = some c') :
    (∃ e cached, c.mapping rel = some e ∧ c.Owns rel e ∧ (c.entries e).nblocks fork = some cached ∧
      cond m cached = true ∧ c' = c.write e fork m true) ∨
    (c' = c ∧ ∀ e cached, c.mapping rel = some e → (c.entries e).nblocks fork = some cached →
      cond m cached = false) := by
  obtain ⟨hcan, hs⟩ := ite_none_right_eq_some.mp hs
  split at hs
  · next hnone =>
    cases hs
    exact .inr ⟨rfl, by simp [hnone]⟩
  · next e hmap =>
    obtain ⟨-, hs⟩ := ite_none_left_eq_some.mp hs
    split at hs
    · next cached hcached =>
      cases hs
      split
      · next hcond =>
        exact .inl ⟨e, cached, hmap, h.owns_of_share hcan hmap, hcached, hcond, rfl⟩
      · next hcond =>
        refine .inr ⟨rfl, fun e' cached' hmap' hcached' => ?_⟩
        obtain rfl : e = e' := some.inj (hmap.symm.trans hmap')
        obtain rfl : cached = cached' := some.inj (hcached.symm.trans hcached')
        simpa using hcond
    · next hnone =>
      cases hs
      refine .inr ⟨rfl, fun e' cached' hmap' hcached' => ?_⟩
      obtain rfl : e = e' := some.inj (hmap.symm.trans hmap')
      rw [hnone] at hcached'
      cases hcached'

theorem lt_max_succ {blocks : List Nat} {b : Nat} (h : b ∈ blocks) :
    b < blocks.foldr max 0 + 1 := by
  induction blocks with
  | nil => cases h
  | cons x rest ih =>
    simp only [foldr_cons]
    rcases mem_cons.mp h with rfl | h
    · omega
    · have := ih h
      omega

namespace Inv

/-- What may be cached once some more items are replayed. -/
def GoodAt (wal : Wal) (i : Nat) (rel : Nat) (fork : Fork) (m : Nat) : Prop :=
  ∀ b ∈ wal.made i rel fork, b < m

variable {rel m : Nat} {fork : Fork} {c : Cache n} {i : Nat}

theorem core_update {cond : Nat → Nat → Bool}
    {good : Nat → Fork → Nat → Prop} {acc acc' : Fin n → Nat → Prop}
    (h : Core par.part good acc s.cache)
    (hs : State.updateIfExists par s.cache rel fork m cond = some c)
    (hother : ∀ r f k, (r, f) ≠ (rel, fork) → good r f k → GoodAt wal i r f k)
    (hnew : ∀ cached, good rel fork cached → cond m cached = true → GoodAt wal i rel fork m)
    (hold : ∀ cached, good rel fork cached → cond m cached = false → GoodAt wal i rel fork cached)
    (hsampled : (∀ q, sampled (s.cache.pc q) ≠ some (rel, fork)) ∨
      ∀ k, good rel fork k → GoodAt wal i rel fork k)
    (hacc : ∀ q m', acc q m' → acc' q m')
    (hlooks : ∀ q r f, (s.cache.pc q).looking = some (r, f) → ∀ k, GoodAt wal i r f k → acc' q k) :
    Core par.part (GoodAt wal i) acc' c := by
  rcases updateIfExists_spec h hs with ⟨e, cached, hmap, hown, hcached, hcond, rfl⟩ | ⟨rfl, hnone⟩
  · exact h.write hmap hown (hnew cached (h.known rel e fork cached hmap hown hcached) hcond) hother
      (.inl rfl) hacc hlooks
  · refine h.env ?_ ?_ (fun q _ => hacc q) hlooks
    · intro r e f k hmap _ hk hgood
      by_cases hf : (r, f) = (rel, fork)
      · obtain ⟨rfl, rfl⟩ := Prod.mk.inj hf
        exact hold k hgood (hnone e k hmap hk)
      · exact hother r f k hf hgood
    · intro q r f e k hpc hgood
      by_cases hf : (r, f) = (rel, fork)
      · obtain ⟨rfl, rfl⟩ := Prod.mk.inj hf
        rcases hsampled with hfree | hmono
        · exact absurd (by rw [hpc]; rfl) (hfree q)
        · exact .inr (hmono k hgood)
      · exact .inr (hother r f k hf hgood)

theorem next (h : Inv par wal startup s) (hlt : s.replayed < s.written) (hfile : t.file = s.file)
    (hcut : t.cut = s.cut) (hwritten : t.written = s.written)
    (hreplayed : t.replayed = s.replayed + 1)
    (hcore : Core par.part (GoodAt wal (s.replayed + 1)) t.Acc t.cache)
    (hne : ∀ q, q ≠ startup → t.cache.pc q = s.cache.pc q)
    (hinit : ∀ rel, (t.cache.pc startup).task = some (.init rel) →
      ∀ fork, wal.made (s.replayed + 1) rel fork = [])
    (hresizing : (t.cache.pc startup).resizing = none)
    (howed : ∀ p rel fork, (t.cache.pc p).looking = some (rel, fork) →
      t.owed p ⊆ wal.touched (s.replayed + 1) rel fork) : Inv par wal startup t where
  core := by
    have hgood : t.Good wal = GoodAt wal (s.replayed + 1) := by
      funext rel fork m
      rw [State.Good, GoodAt, hreplayed]
    exact hgood ▸ hcore
  le := by
    rwa [hreplayed, hwritten]
  covered := by
    rw [hfile, hcut, hwritten]
    exact h.covered
  init p rel hp := by
    rw [hreplayed]
    by_cases hps : p = startup
    · exact ⟨hps, hinit rel (hps ▸ hp)⟩
    · rw [hne p hps] at hp
      exact absurd (h.init p rel hp).1 hps
  noResize p := by
    by_cases hps : p = startup
    · exact hps ▸ hresizing
    · rw [hne p hps]
      exact h.noResize p
  owed := hreplayed ▸ howed

theorem pc_eq_of_updateIfExists {c c' : Cache n} {cond : Nat → Nat → Bool}
    {good : Nat → Fork → Nat → Prop} {acc : Fin n → Nat → Prop} (h : Core par.part good acc c)
    (hs : State.updateIfExists par c rel fork m cond = some c') : c'.pc = c.pc := by
  rcases updateIfExists_spec h hs with ⟨e, cached, -, -, -, -, rfl⟩ | ⟨rfl, -⟩ <;> rfl

variable {rel : Nat}

theorem owed_touch {blocks : List Nat} {update : Bool} (h : Inv par wal startup s)
    (hitem : wal.items[s.replayed]? = some (.touch rel fork blocks update)) (q : Fin n) (r : Nat)
    (f : Fork) (hq : (s.cache.pc q).looking = some (r, f)) :
    s.owed q ⊆ wal.touched (s.replayed + 1) r f := by
  intro b hb
  have hold := h.owed q r f hq hb
  rw [Wal.touched_succ hitem, Item.mark]
  by_cases hf : (r, f) = (rel, fork)
  · obtain ⟨rfl, rfl⟩ := Prod.mk.inj hf
    rw [setFork_self]
    exact mem_append_right _ hold
  · rwa [setFork_of_ne _ _ hf]

/-- A record that may extend a fork is replayed. -/
theorem touch {blocks : List Nat} (h : Inv par wal startup s)
    (hidle : s.cache.pc startup = .idle) (hlt : s.replayed < s.written)
    (hitem : wal.items[s.replayed]? = some (.touch rel fork blocks true))
    (hfree : ∀ q, sampled (s.cache.pc q) ≠ some (rel, fork))
    (hs : State.updateIfExists par s.cache rel fork (blocks.foldr max 0 + 1)
      (fun new cached => cached < new) = some c) :
    Inv par wal startup { s with cache := c, replayed := s.replayed + 1 } := by
  have hpc : c.pc = s.cache.pc := pc_eq_of_updateIfExists h.core hs
  have hmade : wal.made (s.replayed + 1) rel fork = blocks ++ wal.made s.replayed rel fork := by
    rw [Wal.made_succ hitem, Item.make, setFork_self]
  have hother {r : Nat} {f : Fork} (hf : (r, f) ≠ (rel, fork)) :
      wal.made (s.replayed + 1) r f = wal.made s.replayed r f := by
    rw [Wal.made_succ hitem, Item.make, setFork_of_ne _ _ hf]
  have howed := h.owed_touch hitem
  refine h.next hlt rfl rfl rfl rfl ?_ (fun q _ => by rw [hpc]) ?_ ?_ ?_
  · refine core_update h.core hs ?_ ?_ ?_ (.inl hfree) (fun _ _ hm => hm) ?_
    · intro r f k hf hgood b hb
      exact hgood b (hother hf ▸ hb)
    · intro cached hgood hcond b hb
      rw [hmade, mem_append] at hb
      rcases hb with hb | hb
      · exact lt_max_succ hb
      · exact (hgood b hb).trans (by simpa using hcond)
    · intro cached hgood hcond b hb
      rw [hmade, mem_append] at hb
      rcases hb with hb | hb
      · have hle : blocks.foldr max 0 + 1 ≤ cached := by simpa using hcond
        exact (lt_max_succ hb).trans_le hle
      · exact hgood b hb
    · intro q r f hq k hgood b hb
      exact hgood b (wal.touched_subset_made _ _ _ (howed q r f hq hb))
  · rw [hpc, hidle]
    simp [Pc.task]
  · rw [hpc]
    exact h.noResize startup
  · rwa [hpc]

/-- No block is made. -/
theorem core_shrink (h : Inv par wal startup s)
    (hmade : ∀ r f b, b ∈ wal.made i r f → b ∈ wal.made s.replayed r f)
    (hsub : ∀ q, t.owed q ⊆ s.owed q)
    (howed : ∀ q r f, (s.cache.pc q).looking = some (r, f) → t.owed q ⊆ wal.touched i r f) :
    Core par.part (GoodAt wal i) t.Acc s.cache := by
  refine h.core.env ?_ ?_ (fun q _ k hk b hb => hk b (hsub q hb)) ?_
  · exact fun r _ f k _ _ _ hgood b hb => hgood b (hmade r f b hb)
  · exact fun _ r f _ k _ hgood => .inr fun b hb => hgood b (hmade r f b hb)
  · intro q r f hq k hgood b hb
    exact hgood b (wal.touched_subset_made _ _ _ (howed q r f hq hb))

/-- A record touches blocks that exist, and updates nothing. -/
theorem touch_existing {blocks : List Nat} (h : Inv par wal startup s)
    (hidle : s.cache.pc startup = .idle) (hlt : s.replayed < s.written)
    (hitem : wal.items[s.replayed]? = some (.touch rel fork blocks false)) :
    Inv par wal startup { s with replayed := s.replayed + 1 } := by
  have hsub : ∀ b ∈ blocks, b ∈ wal.made s.replayed rel fork :=
    wal.exists_of_touch s.replayed rel fork blocks hitem
  have hmade : ∀ r f b, b ∈ wal.made (s.replayed + 1) r f → b ∈ wal.made s.replayed r f := by
    intro r f b hb
    rw [Wal.made_succ hitem, Item.make] at hb
    by_cases hf : (r, f) = (rel, fork)
    · obtain ⟨rfl, rfl⟩ := Prod.mk.inj hf
      rw [setFork_self, mem_append] at hb
      exact hb.elim (hsub b) id
    · rwa [setFork_of_ne _ _ hf] at hb
  have howed := h.owed_touch hitem
  refine h.next hlt rfl rfl rfl rfl ?_ (fun _ _ => rfl) ?_ (h.noResize startup) howed
  · exact h.core_shrink hmade (fun _ _ hb => hb) howed
  · rw [hidle]
    simp [Pc.task]

theorem owed_forgive (s : State n) (forks : Nat → Fork → Bool) (q : Fin n) :
    (s.forgive forks).owed q ⊆ s.owed q := by
  simp only [State.forgive]
  split
  · exact nil_subset _
  · exact fun _ h => h

theorem owed_forgive_eq_nil {forks : Nat → Fork → Bool} {q : Fin n}
    (hq : (s.cache.pc q).looking = some (rel, fork)) (h : forks rel fork = true) :
    (s.forgive forks).owed q = [] := by
  simp [State.forgive, hq, h]

/-- Blocks go away, and with them what is owed to the lookups. -/
theorem owed_of_forgive (h : Inv par wal startup s) (forks : Nat → Fork → Bool)
    (hkeep : ∀ r f, forks r f = false → wal.touched i r f = wal.touched s.replayed r f) (q : Fin n)
    (r : Nat) (f : Fork) (hq : (s.cache.pc q).looking = some (r, f)) :
    (s.forgive forks).owed q ⊆ wal.touched i r f := by
  cases hforks : forks r f with
  | true =>
    rw [owed_forgive_eq_nil hq hforks]
    exact nil_subset _
  | false =>
    rw [hkeep r f hforks]
    exact List.Subset.trans (owed_forgive s forks q) (h.owed q r f hq)

/-- A truncation is replayed. -/
theorem truncate (h : Inv par wal startup s)
    (hidle : s.cache.pc startup = .idle) (hlt : s.replayed < s.written)
    (hitem : wal.items[s.replayed]? = some (.truncate rel fork m))
    (hs : State.updateIfExists par s.cache rel fork m (fun new cached => new < cached) = some c) :
    Inv par wal startup { s.forgive (fun r f => r = rel ∧ f = fork) with
      cache := c, replayed := s.replayed + 1 } := by
  have hpc : c.pc = s.cache.pc := pc_eq_of_updateIfExists h.core hs
  have hmade : wal.made (s.replayed + 1) rel fork =
      (wal.made s.replayed rel fork).filter (· < m) := by
    rw [Wal.made_succ hitem, Item.make, setFork_self]
  have hother {r : Nat} {f : Fork} (hf : (r, f) ≠ (rel, fork)) :
      wal.made (s.replayed + 1) r f = wal.made s.replayed r f := by
    rw [Wal.made_succ hitem, Item.make, setFork_of_ne _ _ hf]
  have howed := h.owed_of_forgive (fun r f => r = rel ∧ f = fork) (by
    intro r f hf
    have hne : (r, f) ≠ (rel, fork) := by simpa using hf
    rw [Wal.touched_succ hitem, Item.mark, setFork_of_ne _ _ hne])
  refine h.next hlt rfl rfl rfl rfl ?_ (fun q _ => by rw [hpc]) ?_ ?_ ?_
  · have hmono : ∀ k, s.Good wal rel fork k → GoodAt wal (s.replayed + 1) rel fork k := by
      intro k hgood b hb
      rw [hmade] at hb
      exact hgood b (mem_of_mem_filter hb)
    refine core_update h.core hs ?_ ?_ (fun k hgood _ => hmono k hgood) (.inr hmono) ?_ ?_
    · intro r f k hf hgood b hb
      exact hgood b (hother hf ▸ hb)
    · intro cached _ _ b hb
      rw [hmade] at hb
      simpa using (mem_filter.mp hb).2
    · exact fun q k hk b hb => hk b (owed_forgive s (fun r f => r = rel ∧ f = fork) q hb)
    · intro q r f hq k hgood b hb
      exact hgood b (wal.touched_subset_made _ _ _ (howed q r f hq hb))
  · rw [hpc, hidle]
    simp [Pc.task]
  · rw [hpc]
    exact h.noResize startup
  · rwa [hpc]

/-- The startup process goes on in the cache with a relation whose blocks went away. -/
theorem restart (h : Inv par wal startup s) (forks : Nat → Fork → Bool) (pc : Pc)
    (hidle : s.cache.pc startup = .idle) (hlt : s.replayed < s.written)
    (hmade : ∀ r f b, b ∈ wal.made (s.replayed + 1) r f → b ∈ wal.made s.replayed r f)
    (hkeep : ∀ r f, forks r f = false →
      wal.touched (s.replayed + 1) r f = wal.touched s.replayed r f)
    (hheld : pc.held = none) (hlooking : pc.looking = none) (hresizing : pc.resizing = none)
    (hok : ∀ good (acc : Nat → Prop), PcOk good acc s.cache pc)
    (hinit : ∀ rel, pc.task = some (.init rel) → ∀ fork, wal.made (s.replayed + 1) rel fork = []) :
    Inv par wal startup { s.forgive forks with
      cache := s.cache.goto startup pc, replayed := s.replayed + 1 } := by
  have howed := h.owed_of_forgive forks hkeep
  have hbusy : ∀ r e, ¬ (s.cache.pc startup).Busy r e := by
    rw [hidle]
    exact fun _ _ hb => hb
  have hcore := h.core_shrink hmade (owed_forgive s forks) howed
  refine h.next hlt rfl rfl rfl rfl ?_ (fun q hq => Cache.pc_goto_of_ne _ _ _ hq) ?_ ?_ ?_
  · exact hcore.goto (hcore.mutex.keep (by simp [hheld])) hbusy (hok _ _) (.inl hlooking)
  · rwa [Cache.pc_goto_self]
  · rw [Cache.pc_goto_self]
    exact hresizing
  · intro q r f hq
    by_cases hqs : q = startup
    · rw [hqs, Cache.pc_goto_self, hlooking] at hq
      cases hq
    · rw [Cache.pc_goto_of_ne _ _ _ hqs] at hq
      exact howed q r f hq

theorem goto_eq_self {p : Fin n} (h : c.pc p = .idle) : c.goto p .idle = c := by
  have hproc : { c.procs p with pc := .idle } = c.procs p := by
    rw [← h]
    rfl
  rw [Cache.goto, hproc, Function.update_eq_self]

theorem mem_of_mem_clear {b : Blocks} {rel r : Nat} {f : Fork} {k : Nat} (h : k ∈ b.clear rel r f) :
    k ∈ b r f := by
  by_cases hr : r = rel
  · subst hr
    simp at h
  · rwa [Blocks.clear_of_ne hr] at h

/-- The startup process replays the next item. -/
theorem replay {initEmpty : Nat → Bool} {item : Item} (h : Inv par wal startup s)
    (hidle : s.cache.pc startup = .idle) (hlt : s.replayed < s.written)
    (hitem : wal.items[s.replayed]? = some item)
    (hfree : ∀ rel fork blocks, item = .touch rel fork blocks true →
      ∀ q, sampled (s.cache.pc q) ≠ some (rel, fork))
    (hs : s.replayItem par initEmpty startup item = some t) :
    Inv par wal startup { t with replayed := s.replayed + 1 } := by
  cases item with
  | touch rel fork blocks update =>
    cases update with
    | true =>
      obtain ⟨c, hc, rfl⟩ := map_eq_some_iff.mp hs
      exact h.touch hidle hlt hitem (hfree rel fork blocks rfl) hc
    | false =>
      cases hs
      exact h.touch_existing hidle hlt hitem
  | truncate rel fork m =>
    obtain ⟨c, hc, rfl⟩ := map_eq_some_iff.mp hs
    exact h.truncate hidle hlt hitem hc
  | create rel =>
    have hmade : ∀ r f b, b ∈ wal.made (s.replayed + 1) r f → b ∈ wal.made s.replayed r f := by
      intro r f b hb
      rw [Wal.made_succ hitem] at hb
      exact mem_of_mem_clear hb
    have hkeep : ∀ r (f : Fork), decide (r = rel) = false →
        wal.touched (s.replayed + 1) r f = wal.touched s.replayed r f := by
      intro r f hr
      rw [Wal.touched_succ hitem, Item.mark, Blocks.clear_of_ne (of_decide_eq_false hr)]
    cases hs
    split
    · refine h.restart _ (.sweep (.init rel)) hidle hlt hmade hkeep rfl rfl rfl
        (fun _ _ => trivial) ?_
      intro r hr fork
      cases hr
      rw [Wal.made_succ hitem, Item.make, Blocks.clear_self]
    · have hrestart := h.restart (fun r _ => r = rel) .idle hidle hlt hmade hkeep rfl
        rfl rfl (fun _ _ => trivial) (by simp [Pc.task])
      rwa [goto_eq_self hidle] at hrestart
  | drop rel =>
    cases hs
    refine h.restart (fun r _ => r = rel) (.dropLock rel) hidle hlt ?_ ?_ rfl rfl rfl
      (fun _ _ => trivial) (by simp [Pc.task])
    · intro r f b hb
      rw [Wal.made_succ hitem] at hb
      exact mem_of_mem_clear hb
    · intro r f hr
      rw [Wal.touched_succ hitem, Item.mark, Blocks.clear_of_ne (of_decide_eq_false hr)]
  | invalidate rel =>
    cases hs
    have hforgive : s.forgive (fun _ _ => false) = s := by
      simp [State.forgive]
    have hrestart := h.restart (fun _ _ => false) (.dropLock rel) hidle hlt
      (fun r f b hb => by rwa [Wal.made_succ hitem] at hb)
      (fun r f _ => by rw [Wal.touched_succ hitem]; rfl) rfl rfl rfl (fun _ _ => trivial)
      (by simp [Pc.task])
    rwa [hforgive] at hrestart

end Inv

/-- What a process reads next has not been cut beyond what is replayed. -/
def State.Uncut (s : State n) : Pc → Prop
  | .sample rel fork _ => s.cut rel fork ≤ s.replayed
  | _ => True

/-- No length of the fork that the item updates has been read and not yet stored. -/
def State.Unread (s : State n) : Item → Prop
  | .touch rel fork _ true => ∀ q, sampled (s.cache.pc q) ≠ some (rel, fork)
  | _ => True

/-- A length is read from a file that has not been cut beyond what is replayed, and a record that
updates the cache is replayed when no length of that fork has been read and not yet stored. -/
def Settled (wal : Wal) (s : State n) : Op n → Prop
  | .cache p _ => s.Uncut (s.cache.pc p)
  | .replay => ∀ item ∈ wal.items[s.replayed]?, s.Unread item
  | _ => True

theorem Inv.step {initEmpty : Nat → Bool} {op : Op n} (h : Inv par wal startup s)
    (hok : Settled wal s op) (hs : s.step par wal initEmpty startup op = some t) :
    Inv par wal startup t := by
  cases op <;> simp only [State.step] at hs
  case write =>
    obtain ⟨item, hitem, hs⟩ := bind_eq_some_iff.mp hs
    split at hs <;> cases hs
    next hfits => exact h.write hitem hfits
  case extend rel fork m =>
    obtain ⟨old, hold, hs⟩ := bind_eq_some_iff.mp hs
    split at hs <;> cases hs
    next hle => exact h.extend hold hle
  case replace rel fork m i =>
    split at hs <;> cases hs
    next hcut => exact h.replace hcut.1 hcut.2
  case replay =>
    split at hs
    · next hidle =>
      obtain ⟨item, hitem, hs⟩ := bind_eq_some_iff.mp hs
      obtain ⟨t', ht, rfl⟩ := map_eq_some_iff.mp hs
      refine h.replay hidle.1 hidle.2 hitem ?_ ht
      rintro rel fork blocks rfl
      exact hok _ hitem
    · cases hs
  case lookup p rel fork =>
    split at hs <;> cases hs
    next hidle => exact h.lookup hidle
  case cache p pick =>
    obtain ⟨c, hc, rfl⟩ := map_eq_some_iff.mp hs
    refine h.cache hc fun rel fork e hpc => ?_
    simpa only [Settled, hpc, State.Uncut] using hok
  case finish p =>
    split at hs <;> cases hs
    all_goals
      next hpc =>
        refine h.finish fun rel e hbusy => ?_
        rwa [hpc] at hbusy
  case forget p rel =>
    cases hs
    exact h.forget

/-- A cached length, and a length that a lookup returns, is beyond every block that a replayed
record has touched: for the lookup, before it began. -/
structure Fresh (wal : Wal) (s : State n) : Prop where
  cached : ∀ e fork m, (s.cache.entries e).valid = true → (s.cache.entries e).nblocks fork = some m →
    ∀ b ∈ wal.touched s.replayed (s.cache.entries e).rel fork, b < m
  returned : ∀ p rel fork m, s.cache.pc p = .returned rel fork m → ∀ b ∈ s.owed p, b < m

theorem Fresh.of_inv (h : Inv par wal startup s) : Fresh wal s where
  cached e fork m hvalid hm b hb := by
    have hown : s.cache.Owns (s.cache.entries e).rel e := ⟨hvalid, rfl⟩
    have hgood := h.core.known _ e fork m (h.core.valid _ e hown) hown hm
    exact hgood b (wal.touched_subset_made _ _ _ hb)
  returned p rel fork m hpc := by
    have hp : PcOk (s.Good wal) (s.Acc p) s.cache (.returned rel fork m) := hpc ▸ h.core.pcs p
    exact hp

/-- In every run whose steps are settled. -/
theorem replica_fresh (par : Params) (wal : Wal) (initEmpty : Nat → Bool) (startup : Fin n)
    (s : State n) (run : Reaches (State.step par wal initEmpty startup) (Settled wal)
      (State.init n wal) s) : Fresh wal s :=
  .of_inv (run.invariant (Inv par wal startup) (.init' startup) fun _ _ _ h hok hs => h.step hok hs)

instance (s : State n) : (pc : Pc) → Decidable (s.Uncut pc)
  | .sample rel fork _ => inferInstanceAs (Decidable (s.cut rel fork ≤ s.replayed))
  | .idle | .readRef _ _ | .checkRef _ _ _ _ | .searchMapping _ _ | .returned _ _ _ | .find _
  | .store _ _ _ | .resized _ _ | .sweep _ | .evictLock _ _ _ | .evictClear _ _ _
  | .evictRemove _ _ _ | .putLock _ _ | .putEnter _ _ | .putFill _ _ | .dropLock _ | .dropClear _ _
  | .dropRemove _ _ | .dropped _ => .isTrue trivial

instance (s : State n) : (item : Item) → Decidable (s.Unread item)
  | .touch rel fork _ true =>
    inferInstanceAs (Decidable (∀ q, sampled (s.cache.pc q) ≠ some (rel, fork)))
  | .touch _ _ _ false | .truncate _ _ _ | .create _ | .drop _ | .invalidate _ => .isTrue trivial

instance (wal : Wal) (s : State n) : (op : Op n) → Decidable (Settled wal s op)
  | .cache p _ => inferInstanceAs (Decidable (s.Uncut (s.cache.pc p)))
  | .replay => inferInstanceAs (Decidable (∀ item ∈ wal.items[s.replayed]?, s.Unread item))
  | .write | .extend _ _ _ | .replace _ _ _ _ | .lookup _ _ _ | .finish _ | .forget _ _ =>
    .isTrue trivial

/-- A cache with one entry. -/
def onePar : Params := ⟨fun rel => rel, 1⟩

/-- A heap of one block, and an insert into the next block. -/
def insertWal : Wal where
  records := [.blocks .heapInsert [⟨1, .main, 1⟩]]
  base := fun _ _ => []
  file := fun rel fork => if rel = 1 ∧ fork = .main then some 1 else none
  base_covered := fun _ _ => rfl
  exists_of_touch := by
    intro i rel fork blocks hi
    match i, hi with
    | 0, hi => simp [redo, redoBlocks, BlockRef.touch] at hi
    | i + 1, hi => simp [redo, redoBlocks] at hi

/-- The record is replayed after the primary has extended the file. -/
def replayInsert : List (Op 2) := [.extend 1 .main 2, .write, .replay]

/-- A lookup that begins after the record returns the new length. -/
theorem replica_fresh_insert : ∃ s : State 2,
    Reaches (State.step onePar insertWal (fun _ => true) 0) (Settled insertWal)
      (State.init 2 insertWal) s ∧ Fresh insertWal s ∧
      s.cache.pc 1 = .returned 1 .main 2 ∧ s.owed 1 = [1] := by
  obtain ⟨s, run, hview⟩ := exists_reaches_tested (State.step onePar insertWal (fun _ => true) 0)
    (Settled insertWal) (State.init 2 insertWal)
    (.lookup 1 1 .main :: replicate 10 (.cache 1 0) ++ [.finish 1] ++ replayInsert ++
      [.lookup 1 1 .main, .cache 1 0, .cache 1 0])
    (fun s => s.cache.pc 1 = .returned 1 .main 2 ∧ s.owed 1 = [1]) (by decide +kernel)
  exact ⟨s, run, replica_fresh _ _ _ _ s run, hview⟩

/-- The record is replayed after a lookup has read the file and before it stores the length: the
entry keeps the old length, and so does the next lookup. -/
theorem replica_stale :
    (¬ ∀ (n : Nat) (par : Params) (wal : Wal) (initEmpty : Nat → Bool) (startup : Fin n)
        (s : State n), Reaches (State.step par wal initEmpty startup) (fun _ _ => True)
        (State.init n wal) s →
      ∀ e fork m, (s.cache.entries e).valid = true → (s.cache.entries e).nblocks fork = some m →
        ∀ b ∈ wal.touched s.replayed (s.cache.entries e).rel fork, b < m) ∧
    ¬ ∀ (n : Nat) (par : Params) (wal : Wal) (initEmpty : Nat → Bool) (startup : Fin n)
        (s : State n), Reaches (State.step par wal initEmpty startup) (fun _ _ => True)
        (State.init n wal) s →
      ∀ p rel fork m, s.cache.pc p = .returned rel fork m → ∀ b ∈ s.owed p, b < m := by
  obtain ⟨s, run, hpc, howed, hvalid, hcached, hrel, hreplayed⟩ := exists_reaches_any
    (State.step onePar insertWal (fun _ => true) 0) (State.init 2 insertWal)
    (.lookup 1 1 .main :: replicate 9 (.cache 1 0) ++ replayInsert ++
      [.cache 1 0, .finish 1, .lookup 1 1 .main, .cache 1 0, .cache 1 0])
    (fun s => s.cache.pc 1 = .returned 1 .main 1 ∧ s.owed 1 = [1] ∧
      (s.cache.entries 0).valid = true ∧ (s.cache.entries 0).nblocks .main = some 1 ∧
      (s.cache.entries 0).rel = 1 ∧ s.replayed = 1) (by decide +kernel)
  constructor
  · intro hall
    have hlt := hall 2 _ _ _ _ s run 0 .main 1 hvalid hcached 1 (by
      rw [hrel, hreplayed]
      decide)
    exact absurd hlt (lt_irrefl 1)
  · intro hall
    have hlt := hall 2 _ _ _ _ s run 1 1 .main 1 hpc 1 (by simp [howed])
    exact absurd hlt (lt_irrefl 1)

end Polar.SizeCache.Replica
