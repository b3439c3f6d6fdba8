import Polar.SizeCache.Core

/-!
# The steps of the cache

Every step of a process in the cache keeps the invariant, provided that the lengths that it brings
into the cache are good.
-/

namespace Polar.SizeCache.Core

variable {n : Nat} {par : Params} {good : Nat → Fork → Nat → Prop} {acc : Fin n → Nat → Prop}
  {c c' : Cache n} {p : Fin n}

/-- A process moves to a place where it holds no lock. -/
theorem leave {part : Nat → Nat} (h : Core part good acc c) {pc pc' : Pc} (hpc : c.pc p = pc)
    (hp : PcOk good (acc p) c pc') (hheld : pc'.held = none := by rfl)
    (hbusy : ∀ r e, ¬ pc.Busy r e := by simp [Pc.Busy])
    (hlook : pc'.looking = none ∨ pc'.looking = pc.looking := by
      simp [Pc.looking, Task.looking]) : Core part good acc (c.goto p pc') :=
  h.goto (h.mutex.keep (by simp [hheld])) (hpc ▸ hbusy) hp (hpc ▸ hlook)

section

variable (h : Core par.part good acc c)
include h

theorem searchStep (hs : searchStep par c p = some c') : Core par.part good acc c' := by
  unfold SizeCache.searchStep at hs
  split at hs
  · next rel fork hpc =>
    split at hs <;> cases hs
    · exact h.leave hpc trivial
    · next ref href =>
      refine h.leave hpc ?_
      -- The length that is read is good if the generation is still the same.
      have hok := h.refs p rel ref href
      refine ⟨hok.le, fun heq m hm => ?_⟩
      rcases hok.owns heq with ⟨hmap, hown⟩ | hdrop
      · exact h.looks p rel fork (by simp [hpc, Pc.looking]) m (h.known rel _ fork m hmap hown hm)
      · rw [hdrop.2.2 fork] at hm
        cases hm
  · next rel fork ref result hpc =>
    have hp : PcOk good (acc p) c (.checkRef rel fork ref result) := hpc ▸ h.pcs p
    split at hs
    · next hgen =>
      split at hs <;> cases hs
      · exact h.leave hpc (hp.2 hgen.symm _ rfl)
      · exact h.leave hpc trivial
    · cases hs
      have hset : Core par.part good acc (c.setRef p rel none) := h.setRef (by simp)
      exact hset.leave (by simpa using hpc) trivial
  · next rel fork hpc =>
    obtain ⟨hcan, hs⟩ := Option.ite_none_right_eq_some.mp hs
    split at hs
    · cases hs
      exact h.leave hpc trivial
    · next e hmap =>
      have hown := h.owns_of_share hcan hmap
      have hset : Core par.part good acc (c.setRef p rel (some ⟨e, (c.entries e).generation⟩)) := by
        refine h.setRef fun r hr => ?_
        cases hr
        exact ⟨le_rfl, fun _ => .inl ⟨hmap, hown⟩⟩
      split at hs <;> cases hs
      · next m hm =>
        refine hset.leave (by simpa using hpc) ?_
        exact h.looks p rel fork (by simp [hpc, Pc.looking]) m (h.known rel e fork m hmap hown hm)
      · exact hset.leave (by simpa using hpc) trivial
  · cases hs

/-- The steps of `polar_rsc_update_entry`, except for the store of a changed length. -/
theorem updateStep {file : Nat → Fork → Option Nat} (hs : updateStep par file c p = some c')
    (hfile : ∀ rel fork e m, c.pc p = .sample rel fork e → file rel fork = some m →
      good rel fork m)
    (hresize : ∀ rel fork e m, c.pc p = .store (.resize rel fork m) e m → good rel fork m) :
    Core par.part good acc c' := by
  unfold SizeCache.updateStep at hs
  split at hs
  · next t hpc =>
    have hbusy : ∀ r e, ¬ (c.pc p).Busy r e := by simp [hpc, Pc.Busy]
    obtain ⟨hcan, hs⟩ := Option.ite_none_right_eq_some.mp hs
    split at hs <;> cases hs
    · exact h.leave hpc trivial
    · next hmap =>
      exact h.goto (h.mutex.share hcan rfl rfl) hbusy hmap
        (.inr (by simp [hpc, Pc.looking, Task.looking]))
    · next hmap =>
      exact h.goto (h.mutex.share hcan rfl rfl) hbusy ⟨hmap, rfl⟩ (.inl rfl)
  · next rel fork e hpc =>
    have hp : PcOk good (acc p) c (.sample rel fork e) := hpc ▸ h.pcs p
    have hbusy : ∀ r e, ¬ (c.pc p).Busy r e := by simp [hpc, Pc.Busy]
    split at hs <;> cases hs
    · exact h.leave hpc trivial
    · next m hm =>
      have hgood := hfile rel fork e m hpc hm
      refine h.goto (h.mutex.keep ?_) hbusy ?_ (.inr (by simp [hpc, Pc.looking, Task.looking]))
      · simp [hpc, Pc.held, Task.rel, Pc.exclusive]
      · exact ⟨hp, .inr hgood, h.looks p rel fork (by simp [hpc, Pc.looking]) m hgood⟩
  · next rel fork m' e m hpc =>
    obtain ⟨hmap, rfl⟩ : PcOk good (acc p) c (.store (.resize rel fork m') e m) := hpc ▸ h.pcs p
    obtain ⟨-, ⟨⟩⟩ := Option.ite_none_left_eq_some.mp hs
    have hown := h.owns_of_held hpc rfl id hmap
    have hwrite : Core par.part good acc (c.write e fork m true) :=
      h.write hmap hown (hresize rel fork e m hpc) (fun _ _ _ _ hm => hm) (.inl rfl)
        (fun _ _ hm => hm) h.looks
    exact hwrite.leave hpc trivial
  · next rel fork e m hpc =>
    obtain ⟨hmap, hor, hm⟩ : PcOk good (acc p) c (.store (.lookup rel fork) e m) := hpc ▸ h.pcs p
    obtain ⟨-, hs⟩ := Option.ite_none_left_eq_some.mp hs
    split at hs <;> cases hs
    · exact h.leave hpc hm
    · next hclean =>
      have hgood : good rel fork m := hor.resolve_left hclean
      have hwrite : Core par.part good acc (c.write e fork m false) :=
        h.write hmap (h.owns_of_store hpc) hgood (fun _ _ _ _ hm => hm)
          (.inr ⟨by simpa using hclean, fun _ hm => hm⟩) (fun _ _ hm => hm) h.looks
      exact hwrite.leave hpc hm
  · cases hs

theorem evictStep {pick : Nat}
    (hs : evictStep par c p pick = some c') : Core par.part good acc c' := by
  unfold SizeCache.evictStep at hs
  split at hs
  · next t hpc =>
    obtain ⟨-, hs⟩ := Option.ite_none_right_eq_some.mp hs
    split at hs <;> cases hs <;> exact h.leave hpc trivial
  · next t e rel hpc =>
    have hbusy : ∀ r e, ¬ (c.pc p).Busy r e := by simp [hpc, Pc.Busy]
    obtain ⟨hcan, hs⟩ := Option.ite_none_right_eq_some.mp hs
    split at hs <;> cases hs
    · next hmap =>
      exact h.goto (h.mutex.lock hcan rfl) hbusy hmap (.inr (by simp [hpc, Pc.looking]))
    · exact h.leave hpc trivial
  · next t e rel hpc =>
    have hmap : PcOk good (acc p) c (.evictClear t e rel) := hpc ▸ h.pcs p
    obtain ⟨hunlocked, ⟨⟩⟩ := Option.ite_none_left_eq_some.mp hs
    refine h.clear hpc rfl rfl (fun _ _ => id) hmap (by simpa using hunlocked) rfl
      (by simpa using hunlocked) rfl (.inl rfl) rfl ⟨rfl, rfl⟩ (.inr rfl) ⟨hmap, ?_⟩
    simp [Cache.Owns]
  · next t e rel hpc =>
    obtain ⟨hmap, hnot⟩ : PcOk good (acc p) c (.evictRemove t e rel) := hpc ▸ h.pcs p
    cases hs
    exact h.remove hpc rfl rfl (fun _ _ hb => hb.2.symm) hmap hnot rfl (.inr rfl) trivial
  · cases hs

theorem putStep (hs : putStep par c p = some c')
    (hinit : ∀ t e, c.pc p = .putFill t e → ∀ fork m, t.initial fork = some m →
      good t.rel fork m) : Core par.part good acc c' := by
  have hnext (t : Task) : t.next.held = none ∧ (t.next.looking = none ∨ t.next.looking = t.looking) ∧
      ∀ (c : Cache n), PcOk good (acc p) c t.next := by
    cases t
    · exact ⟨rfl, .inr rfl, fun _ => trivial⟩
    · exact ⟨rfl, .inr rfl, fun _ => trivial⟩
    · exact ⟨rfl, .inl rfl, fun _ => trivial⟩
  unfold SizeCache.putStep at hs
  split at hs
  · next t e hpc =>
    have hbusy : ∀ r e, ¬ (c.pc p).Busy r e := by simp [hpc, Pc.Busy]
    obtain ⟨hcan, ⟨⟩⟩ := Option.ite_none_right_eq_some.mp hs
    exact h.goto (h.mutex.lock hcan rfl) hbusy trivial (.inr (by simp [hpc, Pc.looking]))
  · next t e hpc =>
    have hbusy : ∀ r e, ¬ (c.pc p).Busy r e := by simp [hpc, Pc.Busy]
    obtain ⟨hunlocked, hs⟩ := Option.ite_none_left_eq_some.mp hs
    split at hs
    · cases hs
      exact h.leave hpc trivial
    · next hinvalid =>
      split at hs <;> cases hs
      · exact h.setInvalid hbusy (by simpa using hinvalid) (by simpa using hinvalid) rfl rfl rfl rfl
          (hnext t).1 (by simpa [hpc, Pc.looking] using (hnext t).2.1) ((hnext t).2.2 _)
      · next hmap =>
        exact h.enter hpc hmap (by simpa using hunlocked) (by simpa using hinvalid)
          (by simpa using hinvalid) rfl rfl rfl
  · next t e hpc =>
    cases hs
    exact h.fill hpc rfl rfl (hinit t e hpc) rfl (hnext t).1 (hnext t).2.1 ((hnext t).2.2 _)
  · cases hs

theorem dropStep (hs : dropStep par c p = some c') : Core par.part good acc c' := by
  unfold SizeCache.dropStep at hs
  split at hs
  · next rel hpc =>
    have hbusy : ∀ r e, ¬ (c.pc p).Busy r e := by simp [hpc, Pc.Busy]
    obtain ⟨hcan, hs⟩ := Option.ite_none_right_eq_some.mp hs
    split at hs <;> cases hs
    · exact h.leave hpc trivial
    · next e hmap => exact h.goto (h.mutex.lock hcan rfl) hbusy hmap (.inl rfl)
  · next rel e hpc =>
    have hmap : PcOk good (acc p) c (.dropClear rel e) := hpc ▸ h.pcs p
    obtain ⟨hunlocked, ⟨⟩⟩ := Option.ite_none_left_eq_some.mp hs
    refine h.clear hpc rfl rfl (fun _ _ => id) hmap (by simpa using hunlocked) rfl
      (by simpa using hunlocked) rfl (.inr ⟨rfl, fun _ => rfl⟩) rfl ⟨rfl, rfl⟩ (.inl rfl) ⟨hmap, ?_⟩
    simp [Cache.Owns]
  · next rel e hpc =>
    obtain ⟨hmap, hnot⟩ : PcOk good (acc p) c (.dropRemove rel e) := hpc ▸ h.pcs p
    cases hs
    exact h.remove hpc rfl rfl (fun _ _ hb => hb.2.symm) hmap hnot rfl (.inl rfl) trivial
  · cases hs

theorem cacheStep {file : Nat → Fork → Option Nat} {pick : Nat}
    (hs : cacheStep par file c p pick = some c')
    (hfile : ∀ rel fork e m, c.pc p = .sample rel fork e → file rel fork = some m →
      good rel fork m)
    (hresize : ∀ rel fork e m, c.pc p = .store (.resize rel fork m) e m → good rel fork m)
    (hinit : ∀ t e, c.pc p = .putFill t e → ∀ fork m, t.initial fork = some m →
      good t.rel fork m) : Core par.part good acc c' := by
  rcases Option.or_eq_some_iff.mp hs with hs | ⟨-, hs⟩
  · exact h.searchStep hs
  rcases Option.or_eq_some_iff.mp hs with hs | ⟨-, hs⟩
  · exact h.updateStep hs hfile hresize
  rcases Option.or_eq_some_iff.mp hs with hs | ⟨-, hs⟩
  · exact h.evictStep hs
  rcases Option.or_eq_some_iff.mp hs with hs | ⟨-, hs⟩
  · exact h.putStep hs hinit
  · exact h.dropStep hs

end

end Polar.SizeCache.Core

namespace Polar.SizeCache

variable {n : Nat} {par : Params} {c c' : Cache n} {p : Fin n}

/-- The change of a fork that a process has made and not yet stored. -/
def Task.resizing : Task → Option (Nat × Fork × Nat)
  | .resize rel fork nblocks => some (rel, fork, nblocks)
  | .lookup _ _ | .init _ => none

/-- The relation that the process changes. -/
def Task.owned : Task → Option Nat
  | .resize rel _ _ => some rel
  | .lookup _ _ | .init _ => none

namespace Pc

/-- The task of a process in the cache. -/
def task : Pc → Option Task
  | find t | store t _ _ | sweep t | evictLock t _ _ | evictClear t _ _ | evictRemove t _ _
  | putLock t _ | putEnter t _ | putFill t _ => some t
  | _ => none

/-- The fork that is being resized, and its new length. -/
def resizing (pc : Pc) : Option (Nat × Fork × Nat) := pc.task.bind Task.resizing

/-- The relation that a process may change. -/
def owned : Pc → Option Nat
  | resized rel _ | dropLock rel | dropClear rel _ | dropRemove rel _ | dropped rel => some rel
  | pc => pc.task.bind Task.owned

/-- What a step of a process in the cache keeps of where it is. -/
structure Follows (pc pc' : Pc) : Prop where
  owned : pc'.owned = pc.owned
  resizing : pc'.resizing = pc.resizing ∨
    ∃ rel fork m e k, pc = .store (.resize rel fork m) e k ∧ pc' = .resized rel fork
  task : ∀ rel, pc'.task = some (.init rel) → pc.task = some (.init rel)
  dropped : ∀ rel, pc' = .dropped rel → pc = .dropLock rel ∨ ∃ e, pc = .dropRemove rel e
  looking : pc'.looking = none ∨ pc'.looking = pc.looking

end Pc

theorem Pc.owned_of_resizing {pc : Pc} {rel m : Nat} {fork : Fork}
    (h : pc.resizing = some (rel, fork, m)) : pc.owned = some rel := by
  obtain ⟨t, ht, hres⟩ := Option.bind_eq_some_iff.mp h
  have hown : t.owned = some rel := by
    cases t <;> cases hres
    rfl
  cases pc <;> cases ht <;> exact hown

/-- One process has moved. -/
def Moved (c c' : Cache n) (p : Fin n) : Prop :=
  ∃ (d : Cache n) (pc : Pc), c' = d.goto p pc ∧ d.pc = c.pc ∧ (c.pc p).Follows pc

theorem Task.next_follows (t : Task) (e : Nat) :
    Pc.Follows (.putEnter t e) t.next ∧ Pc.Follows (.putFill t e) t.next := by
  cases t <;> exact ⟨⟨rfl, .inl rfl, by simp [next, Pc.task], by simp [next],
      by simp [next, Pc.looking, Task.looking]⟩,
    ⟨rfl, .inl rfl, by simp [next, Pc.task], by simp [next],
      by simp [next, Pc.looking, Task.looking]⟩⟩

/-- The process moves, with the same task and the same relation in hand. -/
theorem Moved.of_pc {d : Cache n} {pc pc' : Pc} (hpc : c.pc p = pc)
    (hd : d.pc = c.pc := by first | rfl | simp)
    (howned : pc'.owned = pc.owned := by rfl) (hres : pc'.resizing = pc.resizing := by rfl)
    (htask : ∀ rel, pc'.task = some (.init rel) → pc.task = some (.init rel) := by simp [Pc.task])
    (hdropped : ∀ rel, pc' = .dropped rel → pc = .dropLock rel ∨ ∃ e, pc = .dropRemove rel e := by
      simp)
    (hlook : pc'.looking = none ∨ pc'.looking = pc.looking := by
      simp [Pc.looking, Task.looking]) : Moved c (d.goto p pc') p :=
  ⟨d, pc', rfl, hd, hpc ▸ ⟨howned, .inl hres, htask, hdropped, hlook⟩⟩

theorem moved_of_searchStep (hs : searchStep par c p = some c') : Moved c c' p := by
  unfold searchStep at hs
  repeat' split at hs
  all_goals cases hs
  all_goals exact .of_pc ‹_›

theorem moved_of_updateStep {file : Nat → Fork → Option Nat}
    (hs : updateStep par file c p = some c') : Moved c c' p := by
  unfold updateStep at hs
  split at hs
  case h_3 hpc =>
    obtain ⟨-, ⟨⟩⟩ := Option.ite_none_left_eq_some.mp hs
    exact ⟨_, _, rfl, rfl, hpc ▸ ⟨rfl, .inr ⟨_, _, _, _, _, rfl, rfl⟩, by simp [Pc.task], by simp,
      .inl rfl⟩⟩
  all_goals
    repeat' split at hs
    all_goals cases hs
    all_goals exact .of_pc ‹_›

theorem moved_of_evictStep {pick : Nat} (hs : evictStep par c p pick = some c') : Moved c c' p := by
  unfold evictStep at hs
  repeat' split at hs
  all_goals cases hs
  all_goals exact .of_pc ‹_›

theorem moved_of_putStep (hs : putStep par c p = some c') : Moved c c' p := by
  unfold putStep at hs
  split at hs
  · next hpc =>
    split at hs <;> cases hs
    exact .of_pc hpc
  · next t e hpc =>
    obtain ⟨-, hs⟩ := Option.ite_none_left_eq_some.mp hs
    repeat' split at hs
    all_goals cases hs
    · exact .of_pc hpc
    · exact ⟨_, _, rfl, rfl, hpc ▸ (t.next_follows e).1⟩
    · exact .of_pc hpc
  · next t e hpc =>
    cases hs
    exact ⟨_, _, rfl, rfl, hpc ▸ (t.next_follows e).2⟩
  · cases hs

theorem moved_of_dropStep (hs : dropStep par c p = some c') : Moved c c' p := by
  unfold dropStep at hs
  repeat' split at hs
  all_goals cases hs
  all_goals exact .of_pc ‹_›

theorem follows_of_cacheStep {file : Nat → Fork → Option Nat} {pick : Nat}
    (hs : cacheStep par file c p pick = some c') :
    (∀ q, q ≠ p → c'.pc q = c.pc q) ∧ (c.pc p).Follows (c'.pc p) := by
  have key : Moved c c' p := by
    unfold cacheStep at hs
    rcases Option.or_eq_some_iff.mp hs with hs | ⟨-, hs⟩
    · exact moved_of_searchStep hs
    rcases Option.or_eq_some_iff.mp hs with hs | ⟨-, hs⟩
    · exact moved_of_updateStep hs
    rcases Option.or_eq_some_iff.mp hs with hs | ⟨-, hs⟩
    · exact moved_of_evictStep hs
    rcases Option.or_eq_some_iff.mp hs with hs | ⟨-, hs⟩
    · exact moved_of_putStep hs
    · exact moved_of_dropStep hs
  obtain ⟨d, pc, rfl, hd, hfollows⟩ := key
  refine ⟨fun q hq => ?_, ?_⟩
  · rw [Cache.pc_goto_of_ne _ _ _ hq, hd]
  · rwa [Cache.pc_goto_self]

section Places

variable {file : Nat → Fork → Option Nat} {pick : Nat}

theorem cacheStep_eq_of_store_resize {rel m m' e : Nat} {fork : Fork}
    (hpc : c.pc p = .store (.resize rel fork m') e m) (hs : cacheStep par file c p pick = some c') :
    c' = (c.write e fork m true).goto p (.resized rel fork) := by
  simp only [cacheStep, searchStep, updateStep, evictStep, putStep, dropStep, hpc] at hs
  split at hs
  · cases hs
  · simpa using hs.symm

theorem ne_dropped_of_cacheStep (hs : cacheStep par file c p pick = some c') (rel : Nat) :
    c.pc p ≠ .dropped rel := by
  intro hpc
  simp [cacheStep, searchStep, updateStep, evictStep, putStep, dropStep, hpc] at hs

/-- After a drop there is no mapping. -/
theorem mapping_eq_none_of_dropped {rel : Nat} (hs : cacheStep par file c p pick = some c')
    (hpc' : c'.pc p = .dropped rel) : c'.mapping rel = none := by
  rcases (follows_of_cacheStep hs).2.dropped rel hpc' with hpc | ⟨e, hpc⟩
  · simp only [cacheStep, searchStep, updateStep, evictStep, putStep, dropStep, hpc,
      Option.none_or] at hs
    split at hs
    · split at hs <;> cases hs
      · next hnone => exact hnone
      · rw [Cache.pc_goto_self] at hpc'
        cases hpc'
    · cases hs
  · simp only [cacheStep, searchStep, updateStep, evictStep, putStep, dropStep, hpc,
      Option.none_or] at hs
    cases hs
    exact Function.update_self _ _ _

end Places

end Polar.SizeCache
