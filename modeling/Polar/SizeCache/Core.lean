import Polar.SizeCache.System

/-!
# The entries of the cache

Which lengths may be cached, `good`, and which a lookup may return, `acc`, depend on what happens to
the files. Whatever they are, a length that is in a mapped and valid entry is good, and a lookup
returns a length that was good at some moment of it.
-/

namespace Polar.SizeCache

open Function Option

variable {n : Nat}

namespace Cache

variable (c : Cache n) (p q : Fin n)

@[simp] theorem pc_goto_self (pc : Pc) : (c.goto p pc).pc p = pc := by
  simp [goto, Cache.pc]

theorem pc_goto_of_ne (pc : Pc) {q : Fin n} (h : q ≠ p) : (c.goto p pc).pc q = c.pc q := by
  simp [goto, Cache.pc, h]

@[simp] theorem entries_goto (pc : Pc) : (c.goto p pc).entries = c.entries := rfl

@[simp] theorem refs_goto (pc : Pc) : ((c.goto p pc).procs q).refs = (c.procs q).refs := by
  by_cases h : q = p
  · subst h; simp [goto]
  · simp [goto, h]

@[simp] theorem pc_setEntry (e : Nat) (entry : Entry) : (c.setEntry e entry).pc = c.pc := rfl

@[simp] theorem pc_setMapping (rel : Nat) (e : Option Nat) : (c.setMapping rel e).pc = c.pc := rfl

@[simp] theorem pc_setRef (rel : Nat) (ref : Option Ref) : (c.setRef p rel ref).pc = c.pc := by
  funext q
  by_cases h : q = p
  · subst h; simp [setRef, Cache.pc]
  · simp [setRef, Cache.pc, h]

@[simp] theorem entries_setEntry_self (e : Nat) (entry : Entry) :
    (c.setEntry e entry).entries e = entry := by
  simp [setEntry]

theorem entries_setEntry_of_ne {e e' : Nat} (entry : Entry) (h : e' ≠ e) :
    (c.setEntry e entry).entries e' = c.entries e' := by
  simp [setEntry, h]

/-- The entry is the valid entry of the relation. -/
def Owns (rel e : Nat) : Prop := (c.entries e).valid = true ∧ (c.entries e).rel = rel

/-- The entry was dropped, and nobody has taken it since. -/
def Dropped (e : Nat) : Prop :=
  (c.entries e).valid = false ∧ (c.entries e).locked = false ∧
    ∀ fork, (c.entries e).nblocks fork = none

end Cache

/-- The process is about to remove the mapping of the relation to the entry, or to fill the
entry. -/
def Pc.Busy (rel e : Nat) : Pc → Prop
  | .evictRemove _ e' rel' | .dropRemove rel' e' => e' = e ∧ rel' = rel
  | .putFill t e' => e' = e ∧ t.rel = rel
  | _ => False

theorem Pc.Busy.held {rel e : Nat} {pc : Pc} (h : pc.Busy rel e) :
    pc.exclusive = true ∧ rel ∈ pc.held := by
  cases pc <;> simp only [Pc.Busy] at h
  all_goals exact ⟨rfl, by simp [Pc.held, h.2]⟩

/-- A lock that is held exclusively is held by one process. -/
def Mutex (part : Nat → Nat) (c : Cache n) : Prop :=
  ∀ p q, p ≠ q → (c.pc p).exclusive = true → ∀ r ∈ (c.pc p).held, ∀ r' ∈ (c.pc q).held,
    part r ≠ part r'

namespace Mutex

variable {part : Nat → Nat} {c : Cache n} {p : Fin n} {pc : Pc}

variable (h : Mutex part c)
include h

/-- A process goes on, and its lock is compatible with those of the others. -/
theorem goto
    (hp : pc.exclusive = true → ∀ r ∈ pc.held, ∀ q ≠ p, ∀ r' ∈ (c.pc q).held, part r ≠ part r')
    (hq : ∀ q ≠ p, (c.pc q).exclusive = true → ∀ r ∈ (c.pc q).held, ∀ r' ∈ pc.held,
      part r ≠ part r') : Mutex part (c.goto p pc) := by
  intro q q' hne hexcl r hr r' hr'
  by_cases hqp : q = p
  · subst hqp
    rw [Cache.pc_goto_self] at hexcl hr
    rw [Cache.pc_goto_of_ne _ _ _ hne.symm] at hr'
    exact hp hexcl r hr q' hne.symm r' hr'
  · rw [Cache.pc_goto_of_ne _ _ _ hqp] at hexcl hr
    by_cases hqp' : q' = p
    · subst hqp'
      rw [Cache.pc_goto_self] at hr'
      exact hq q hqp hexcl r hr r' hr'
    · rw [Cache.pc_goto_of_ne _ _ _ hqp'] at hr'
      exact h q q' hne hexcl r hr r' hr'

/-- A process keeps its lock, or releases it. -/
theorem keep
    (hheld : ∀ r ∈ pc.held, r ∈ (c.pc p).held ∧ (pc.exclusive = true → (c.pc p).exclusive = true)) :
    Mutex part (c.goto p pc) :=
  h.goto
    (fun hexcl r hr q hq => h p q hq.symm ((hheld r hr).2 hexcl) r (hheld r hr).1)
    fun q hq hexcl r hr r' hr' => h q p hq hexcl r hr r' (hheld r' hr').1

theorem share {rel : Nat} (hcan : c.CanShare part rel)
    (hheld : pc.held = some rel) (hshared : pc.exclusive = false) : Mutex part (c.goto p pc) := by
  refine h.goto (fun hexcl => absurd (hexcl.symm.trans hshared) (by decide)) ?_
  intro q _ hexcl r hr r' hr'
  obtain rfl : rel = r' := some.inj (hheld.symm.trans hr')
  exact hcan q hexcl r hr

theorem lock {rel : Nat} (hcan : c.CanLock part rel)
    (hheld : pc.held = some rel) : Mutex part (c.goto p pc) := by
  refine h.goto (fun _ r hr q _ r' hr' => ?_) fun q _ _ r hr r' hr' => ?_
  · obtain rfl : rel = r := some.inj (hheld.symm.trans hr)
    exact (hcan q r' hr').symm
  · obtain rfl : rel = r' := some.inj (hheld.symm.trans hr')
    exact hcan q r hr

end Mutex

/-- A pointer with the generation of its entry is to the entry of its relation, or to a dropped
one. -/
structure RefOk (c : Cache n) (rel : Nat) (ref : Ref) : Prop where
  le : ref.generation ≤ (c.entries ref.entry).generation
  owns : ref.generation = (c.entries ref.entry).generation →
    (c.mapping rel = some ref.entry ∧ c.Owns rel ref.entry) ∨ c.Dropped ref.entry

/-- What holds where a process is. -/
def PcOk (good : Nat → Fork → Nat → Prop) (acc : Nat → Prop) (c : Cache n) : Pc → Prop
  | .checkRef _ _ ref result =>
    ref.generation ≤ (c.entries ref.entry).generation ∧
      (ref.generation = (c.entries ref.entry).generation → ∀ m ∈ result, acc m)
  | .returned _ _ result => acc result
  | .sample rel _ e => c.mapping rel = some e
  | .store (.lookup rel fork) e m =>
    c.mapping rel = some e ∧ ((c.entries e).dirty fork = true ∨ good rel fork m) ∧ acc m
  | .store (.resize rel _ m') e m => c.mapping rel = some e ∧ m = m'
  | .store (.init _) _ _ => False
  | .evictClear _ e rel | .dropClear rel e => c.mapping rel = some e
  | .evictRemove _ e rel | .dropRemove rel e => c.mapping rel = some e ∧ ¬ c.Owns rel e
  | .putFill t e =>
    c.mapping t.rel = some e ∧ (c.entries e).locked = true ∧ (c.entries e).rel = t.rel ∧
      (c.entries e).valid = false
  | _ => True

/-- What a step of another process leaves to a process that holds the lock of a relation. -/
structure Compat (c c' : Cache n) (held : Option Nat) : Prop where
  mapping : ∀ r ∈ held, c'.mapping r = c.mapping r
  generation : ∀ e, (c.entries e).generation ≤ (c'.entries e).generation
  owns : ∀ r ∈ held, ∀ e, c'.Owns r e → c.Owns r e
  filling : ∀ r ∈ held, ∀ e, (c.entries e).rel = r → (c.entries e).locked = true →
    (c.entries e).valid = false → (c'.entries e).locked = true ∧ (c'.entries e).rel = r ∧
      (c'.entries e).valid = false

/-- The invariant of the cache. -/
structure Core (part : Nat → Nat) (good : Nat → Fork → Nat → Prop) (acc : Fin n → Nat → Prop)
    (c : Cache n) : Prop where
  mutex : Mutex part c
  mapped : ∀ rel e, c.mapping rel = some e → c.Owns rel e ∨ ∃ q, (c.pc q).Busy rel e
  valid : ∀ rel e, c.Owns rel e → c.mapping rel = some e
  known : ∀ rel e fork m, c.mapping rel = some e → c.Owns rel e →
    (c.entries e).nblocks fork = some m → good rel fork m
  refs : ∀ p rel ref, (c.procs p).refs rel = some ref → RefOk c rel ref
  pcs : ∀ p, PcOk good (acc p) c (c.pc p)
  looks : ∀ p rel fork, (c.pc p).looking = some (rel, fork) → ∀ m, good rel fork m → acc p m

namespace Core

variable {part : Nat → Nat} {good good' : Nat → Fork → Nat → Prop} {acc acc' : Fin n → Nat → Prop}
  {c c' : Cache n} {p : Fin n}

theorem init : Core part good acc (Cache.init n) where
  mutex p q _ hexcl := by simp [Cache.init, Cache.pc, Pc.exclusive] at hexcl
  mapped rel e h := by simp [Cache.init] at h
  valid rel e h := by simp [Cache.init, Cache.Owns] at h
  known rel e fork m h := by simp [Cache.init] at h
  refs p rel ref h := by simp [Cache.init] at h
  pcs p := trivial
  looks p rel fork h := by simp [Cache.init, Cache.pc, Pc.looking] at h

section

variable (h : Core part good acc c)
include h

/-- With a lock on its relation, a process finds the mapped entry valid. -/
theorem owns_of_share {rel e : Nat} (hcan : c.CanShare part rel)
    (hmap : c.mapping rel = some e) : c.Owns rel e := by
  rcases h.mapped rel e hmap with howns | ⟨q, hq⟩
  · exact howns
  · exact absurd rfl (hcan q hq.held.1 rel hq.held.2)

theorem owns_of_held {pc : Pc} (hpc : c.pc p = pc) {rel e : Nat}
    (hheld : rel ∈ pc.held) (hnot : ¬ pc.Busy rel e) (hmap : c.mapping rel = some e) :
    c.Owns rel e := by
  subst hpc
  rcases h.mapped rel e hmap with howns | ⟨q, hq⟩
  · exact howns
  · by_cases hpq : q = p
    · exact absurd (hpq ▸ hq) hnot
    · exact absurd rfl (h.mutex q p hpq hq.held.1 rel hq.held.2 rel hheld)

/-- A sample that is about to be stored is for a valid entry. -/
theorem owns_of_store {rel e m : Nat} {fork : Fork}
    (hpc : c.pc p = .store (.lookup rel fork) e m) : c.Owns rel e := by
  have hp := h.pcs p
  rw [hpc] at hp
  exact h.owns_of_held hpc rfl id hp.1

/-- The step of another process keeps what holds where a process is. -/
theorem pcOk_of_compat {q : Fin n} {pc : Pc} (hpc : c.pc q = pc) (hc : Compat c c' pc.held)
    (hstore : ∀ rel fork e m, pc = .store (.lookup rel fork) e m → c.Owns rel e →
      (c.entries e).dirty fork = true ∨ good rel fork m →
      (c'.entries e).dirty fork = true ∨ good' rel fork m)
    (hacc : ∀ m, acc q m → acc' q m) : PcOk good' (acc' q) c' pc := by
  have hq := hpc ▸ h.pcs q
  cases pc with
  | checkRef rel fork ref result =>
    refine ⟨hq.1.trans (hc.generation _), fun heq m hm => hacc m (hq.2 ?_ m hm)⟩
    exact le_antisymm hq.1 (heq ▸ hc.generation _)
  | returned rel fork result => exact hacc _ hq
  | sample rel fork e => exact (hc.mapping rel rfl).trans hq
  | store t e m =>
    cases t with
    | lookup rel fork =>
      obtain ⟨hmap, hor, hm⟩ := hq
      refine ⟨(hc.mapping rel rfl).trans hmap, ?_, hacc m hm⟩
      exact hstore rel fork e m rfl (h.owns_of_store hpc) hor
    | resize rel fork m' => exact ⟨(hc.mapping rel rfl).trans hq.1, hq.2⟩
    | init rel => exact hq
  | evictClear t e rel => exact (hc.mapping rel rfl).trans hq
  | dropClear rel e => exact (hc.mapping rel rfl).trans hq
  | evictRemove t e rel =>
    exact ⟨(hc.mapping rel rfl).trans hq.1, fun howns => hq.2 (hc.owns rel rfl e howns)⟩
  | dropRemove rel e =>
    exact ⟨(hc.mapping rel rfl).trans hq.1, fun howns => hq.2 (hc.owns rel rfl e howns)⟩
  | putFill t e =>
    obtain ⟨hmap, hlocked, hrel, hvalid⟩ := hq
    exact ⟨(hc.mapping _ rfl).trans hmap, hc.filling _ rfl e hrel hlocked hvalid⟩
  | idle | readRef | searchMapping | find | resized | sweep | evictLock | putLock | putEnter
  | dropLock | dropped => trivial

theorem build (hpc : ∀ q, q ≠ p → c'.pc q = c.pc q) (hmutex : Mutex part c')
    (hmapped : ∀ rel e, c'.mapping rel = some e → c'.Owns rel e ∨ ∃ q, (c'.pc q).Busy rel e)
    (hvalid : ∀ rel e, c'.Owns rel e → c'.mapping rel = some e)
    (hknown : ∀ rel e fork m, c'.mapping rel = some e → c'.Owns rel e →
      (c'.entries e).nblocks fork = some m → good rel fork m)
    (hrefs : ∀ q rel ref, (c'.procs q).refs rel = some ref → RefOk c' rel ref)
    (hcompat : ∀ q, q ≠ p → Compat c c' (c.pc q).held)
    (hdirty : ∀ q rel fork e m, q ≠ p → c.pc q = .store (.lookup rel fork) e m → c.Owns rel e →
      (c.entries e).dirty fork = true → (c'.entries e).dirty fork = true)
    (hp : PcOk good (acc p) c' (c'.pc p))
    (hlook : ∀ rel fork, (c'.pc p).looking = some (rel, fork) → ∀ m, good rel fork m → acc p m) :
    Core part good acc c' where
  mutex := hmutex
  mapped := hmapped
  valid := hvalid
  known := hknown
  refs := hrefs
  pcs q := by
    by_cases hq : q = p
    · exact hq ▸ hp
    · rw [hpc q hq]
      refine h.pcOk_of_compat rfl (hcompat q hq) ?_ fun _ hm => hm
      exact fun rel fork e m hstore howns => Or.imp_left (hdirty q rel fork e m hq hstore howns)
  looks q rel fork hlooking := by
    by_cases hq : q = p
    · subst hq
      exact hlook rel fork hlooking
    · exact h.looks q rel fork (hpc q hq ▸ hlooking)

/-- A process looks up the length it has looked up before, or none. -/
theorem looks_of_eq {pc : Pc} (hlook : pc.looking = none ∨ pc.looking = (c.pc p).looking)
    (rel : Nat) (fork : Fork) (hlooking : pc.looking = some (rel, fork)) (m : Nat)
    (hm : good rel fork m) : acc p m := by
  rcases hlook with hnone | hsame
  · rw [hnone] at hlooking
    cases hlooking
  · exact h.looks p rel fork (hsame ▸ hlooking) m hm

end

end Core

theorem RefOk.frame {c c' : Cache n} {rel : Nat} {ref : Ref} (h : RefOk c rel ref)
    (hgen : ∀ e, (c.entries e).generation ≤ (c'.entries e).generation)
    (howns : ∀ e, (c.entries e).generation = (c'.entries e).generation →
      c.mapping rel = some e → c.Owns rel e →
      (c'.mapping rel = some e ∧ c'.Owns rel e) ∨ c'.Dropped e)
    (hdropped : ∀ e, (c.entries e).generation = (c'.entries e).generation →
      c.Dropped e → c'.Dropped e) : RefOk c' rel ref where
  le := h.le.trans (hgen _)
  owns heq := by
    have hsame : (c.entries ref.entry).generation = (c'.entries ref.entry).generation :=
      le_antisymm (hgen _) (heq ▸ h.le)
    rcases h.owns (heq.trans hsame.symm) with ⟨hmap, hown⟩ | hdrop
    · exact howns _ hsame hmap hown
    · exact .inr (hdropped _ hsame hdrop)

theorem Compat.refl (c : Cache n) (held : Option Nat) : Compat c c held where
  mapping _ _ := rfl
  generation _ := le_rfl
  owns _ _ _ h := h
  filling _ _ _ hrel hlocked hvalid := ⟨hlocked, hrel, hvalid⟩

/-- The other processes are left alone by a step that changes one entry, and at most the mapping of
a relation that is locked exclusively. -/
theorem Compat.setEntry {c c' : Cache n} {e : Nat} {entry : Entry} {held : Option Nat}
    (hmap : ∀ r ∈ held, c'.mapping r = c.mapping r)
    (hentries : c'.entries = update c.entries e entry)
    (hgen : (c.entries e).generation ≤ entry.generation)
    (howns : entry.valid = true → entry.rel ∈ held → c.Owns entry.rel e)
    (hfill : (c.entries e).rel ∈ held → (c.entries e).locked = true →
      (c.entries e).valid = false →
      entry.locked = true ∧ entry.rel = (c.entries e).rel ∧ entry.valid = false) :
    Compat c c' held where
  mapping := hmap
  generation e' := by
    rw [hentries]
    by_cases he : e' = e
    · rwa [he, update_self]
    · rw [update_of_ne he]
  owns r hr e' hown := by
    unfold Cache.Owns at hown
    rw [hentries] at hown
    by_cases he : e' = e
    · subst he
      rw [update_self] at hown
      obtain ⟨hvalid, rfl⟩ := hown
      exact howns hvalid hr
    · rwa [update_of_ne he] at hown
  filling r hr e' hrel hlocked hvalid := by
    rw [hentries]
    by_cases he : e' = e
    · subst he
      rw [update_self]
      subst hrel
      exact hfill hr hlocked hvalid
    · rw [update_of_ne he]
      exact ⟨hlocked, hrel, hvalid⟩

namespace Core

variable {part : Nat → Nat} {good good' : Nat → Fork → Nat → Prop} {acc acc' : Fin n → Nat → Prop}
  {c c' : Cache n} {p : Fin n}

section

variable (h : Core part good acc c)
include h

variable {pc : Pc}

theorem gotoLooking (hmutex : Mutex part (c.goto p pc))
    (hbusy : ∀ rel e, ¬ (c.pc p).Busy rel e) (hp : PcOk good (acc p) c pc)
    (hlook : ∀ rel fork, pc.looking = some (rel, fork) → ∀ m, good rel fork m → acc p m) :
    Core part good acc (c.goto p pc) := by
  refine h.build (fun q hq => Cache.pc_goto_of_ne c p pc hq) hmutex ?_ h.valid h.known ?_
    (fun q _ => { Compat.refl c _ with }) ?_ ?_ ?_
  · intro rel e hmap
    refine (h.mapped rel e hmap).imp id fun ⟨q, hq⟩ => ⟨q, ?_⟩
    have hne : q ≠ p := fun heq => hbusy rel e (heq ▸ hq)
    rwa [Cache.pc_goto_of_ne c p pc hne]
  · intro q rel ref href
    rw [Cache.refs_goto] at href
    exact { h.refs q rel ref href with }
  · exact fun _ _ _ _ _ _ _ _ hdirty => hdirty
  · rw [Cache.pc_goto_self]
    cases pc <;> exact hp
  · rwa [Cache.pc_goto_self]

theorem goto (hmutex : Mutex part (c.goto p pc))
    (hbusy : ∀ rel e, ¬ (c.pc p).Busy rel e) (hp : PcOk good (acc p) c pc)
    (hlook : pc.looking = none ∨ pc.looking = (c.pc p).looking) :
    Core part good acc (c.goto p pc) :=
  h.gotoLooking hmutex hbusy hp (h.looks_of_eq hlook)

/-- A lookup begins. -/
theorem begin (hidle : c.pc p = .idle) {rel : Nat} {fork : Fork}
    (hacc : ∀ m, good rel fork m → acc p m) :
    Core part good acc (c.goto p (.readRef rel fork)) := by
  refine h.gotoLooking (h.mutex.keep (by simp [Pc.held])) (by simp [hidle, Pc.Busy]) trivial ?_
  rintro r f ⟨⟩
  exact hacc

theorem setRef {rel : Nat} {ref : Option Ref}
    (href : ∀ r ∈ ref, RefOk c rel r) : Core part good acc (c.setRef p rel ref) := by
  have hpc : (c.setRef p rel ref).pc = c.pc := Cache.pc_setRef c p rel ref
  refine { h with mutex := ?_, mapped := ?_, refs := ?_, pcs := ?_, looks := ?_ }
  · unfold Mutex
    rw [hpc]
    exact h.mutex
  · rw [hpc]
    exact h.mapped
  · intro q rel' r hr
    suffices hok : RefOk c rel' r from { hok with }
    by_cases hq : q = p
    · subst hq
      simp only [Cache.setRef, update_self] at hr
      by_cases hrel : rel' = rel
      · subst hrel
        rw [update_self] at hr
        exact href r hr
      · rw [update_of_ne hrel] at hr
        exact h.refs q rel' r hr
    · simp only [Cache.setRef, update_of_ne hq] at hr
      exact h.refs q rel' r hr
  · intro q
    rw [hpc]
    have hq := h.pcs q
    cases hpcq : c.pc q <;> rw [hpcq] at hq <;> exact hq
  · rw [hpc]
    exact h.looks

variable {entry : Entry}

/-- One entry changes. -/
theorem setEntry {e : Nat}
    (hheld : ∀ r ∈ pc.held, r ∈ (c.pc p).held ∧ (pc.exclusive = true → (c.pc p).exclusive = true))
    (hmapped : ∀ r, c.mapping r = some e → (entry.valid = true ∧ entry.rel = r) ∨ pc.Busy r e ∨
      ∃ q ≠ p, (c.pc q).Busy r e)
    (hbusy : ∀ r, ∀ e' ≠ e, ¬ (c.pc p).Busy r e')
    (hvalid : entry.valid = true → c.mapping entry.rel = some e ∧
      ∀ fork m, entry.nblocks fork = some m → good entry.rel fork m)
    (hgen : (c.entries e).generation ≤ entry.generation)
    (howns : (c.entries e).generation = entry.generation → ∀ r, c.Owns r e →
      entry.valid = false ∧ entry.locked = false ∧ ∀ fork, entry.nblocks fork = none)
    (hdropped : (c.entries e).generation = entry.generation → c.Dropped e →
      entry.valid = false ∧ entry.locked = false ∧ ∀ fork, entry.nblocks fork = none)
    (hcompat : ∀ q ≠ p, (entry.valid = true → entry.rel ∉ (c.pc q).held) ∧
      ((c.entries e).rel ∈ (c.pc q).held → (c.entries e).locked = true →
        (c.entries e).valid = false →
        entry.locked = true ∧ entry.rel = (c.entries e).rel ∧ entry.valid = false))
    (hdirty : ∀ r fork, c.Owns r e → (c.entries e).dirty fork = true → entry.dirty fork = true)
    (hp : PcOk good (acc p) ((c.setEntry e entry).goto p pc) pc)
    (hlook : pc.looking = none ∨ pc.looking = (c.pc p).looking) :
    Core part good acc ((c.setEntry e entry).goto p pc) := by
  set c' := (c.setEntry e entry).goto p pc with hc'
  have hne {q : Fin n} (hq : q ≠ p) : c'.pc q = c.pc q := by
    rw [Cache.pc_goto_of_ne _ _ _ hq, Cache.pc_setEntry]
  have hself : c'.entries e = entry := update_self _ _ _
  have hentry {e' : Nat} (he : e' ≠ e) : c'.entries e' = c.entries e' := update_of_ne he _ _
  have hpc : c'.pc p = pc := Cache.pc_goto_self _ _ _
  have hown {r : Nat} (hown : c'.Owns r e) : entry.valid = true ∧ entry.rel = r := by
    rwa [Cache.Owns, hself] at hown
  refine h.build (fun q hq => hne hq) ?_ ?_ ?_ ?_ ?_ ?_ ?_ ?_ ?_
  · exact Mutex.keep h.mutex hheld
  · intro r e' hr
    by_cases he : e' = e
    · subst he
      rcases hmapped r hr with hnew | hbusy | ⟨q, hq, hbusy⟩
      · exact .inl (by rwa [Cache.Owns, hself])
      · exact .inr ⟨p, by rwa [hpc]⟩
      · exact .inr ⟨q, by rwa [hne hq]⟩
    · rcases h.mapped r e' hr with hown | ⟨q, hq⟩
      · exact .inl (by rwa [Cache.Owns, hentry he])
      · have hqp : q ≠ p := fun heq => hbusy r e' he (heq ▸ hq)
        exact .inr ⟨q, by rwa [hne hqp]⟩
  · intro r e' hr
    by_cases he : e' = e
    · subst he
      obtain ⟨hv, rfl⟩ := hown hr
      exact (hvalid hv).1
    · rw [Cache.Owns, hentry he] at hr
      exact h.valid r e' hr
  · intro r e' fork m hr hr' hm
    by_cases he : e' = e
    · subst he
      obtain ⟨hv, rfl⟩ := hown hr'
      exact (hvalid hv).2 fork m (hself ▸ hm)
    · rw [Cache.Owns, hentry he] at hr'
      rw [hentry he] at hm
      exact h.known r e' fork m hr hr' hm
  · intro q r ref href
    rw [Cache.refs_goto] at href
    refine (h.refs q r ref href).frame ?_ ?_ ?_
    · intro e'
      by_cases he : e' = e
      · rwa [he, hself]
      · rw [hentry he]
    · intro e' hsame hr hr'
      by_cases he : e' = e
      · subst he
        rw [hself] at hsame
        exact .inr (by rw [Cache.Dropped, hself]; exact howns hsame r hr')
      · exact .inl ⟨hr, by rwa [Cache.Owns, hentry he]⟩
    · intro e' hsame hdrop
      by_cases he : e' = e
      · subst he
        rw [hself] at hsame
        rw [Cache.Dropped, hself]
        exact hdropped hsame hdrop
      · rwa [Cache.Dropped, hentry he]
  · intro q hq
    obtain ⟨hnot, hfill⟩ := hcompat q hq
    exact Compat.setEntry (fun _ _ => rfl) rfl hgen (fun hv hr => absurd hr (hnot hv)) hfill
  · intro q r fork e' m _ _ hr hd
    by_cases he : e' = e
    · subst he
      rw [hself]
      exact hdirty r fork hr hd
    · rwa [hentry he]
  · rwa [hpc]
  · rw [hpc]
    exact h.looks_of_eq hlook

/-- A relation that the process holds exclusively is not held by another one. -/
theorem not_held {rel : Nat} (hexcl : (c.pc p).exclusive = true) (hheld : rel ∈ (c.pc p).held)
    {q : Fin n} (hq : q ≠ p) : rel ∉ (c.pc q).held :=
  fun hr => h.mutex p q hq.symm hexcl rel hheld rel hr rfl

/-- An entry is invalidated, by an eviction or by a drop. -/
theorem clear {pc pc' : Pc} {rel e : Nat}
    (hpc : c.pc p = pc) (hheld : pc.held = some rel) (hexcl : pc.exclusive = true)
    (hidle : ∀ r e', ¬ pc.Busy r e') (hmap : c.mapping rel = some e)
    (hunlocked : (c.entries e).locked = false) (hinvalid : entry.valid = false)
    (hlocked : entry.locked = false) (hdirty : entry.dirty = (c.entries e).dirty)
    (hgen : entry.generation = (c.entries e).generation + 1 ∨
      entry.generation = (c.entries e).generation ∧ ∀ fork, entry.nblocks fork = none)
    (hpc' : pc'.held = some rel) (hbusy : pc'.Busy rel e)
    (hlook : pc'.looking = none ∨ pc'.looking = pc.looking)
    (hp : PcOk good (acc p) ((c.setEntry e entry).goto p pc') pc') :
    Core part good acc ((c.setEntry e entry).goto p pc') := by
  subst hpc
  have howns : c.Owns rel e := h.owns_of_held rfl (by simp [hheld]) (hidle rel e) hmap
  have hv : ¬ entry.valid = true := by simp [hinvalid]
  have hdrop : (c.entries e).generation = entry.generation →
      entry.valid = false ∧ entry.locked = false ∧ ∀ fork, entry.nblocks fork = none := by
    intro hsame
    rcases hgen with hgen | ⟨-, hnone⟩
    · omega
    · exact ⟨hinvalid, hlocked, hnone⟩
  refine h.setEntry ?_ ?_ (fun r e' _ => hidle r e') (fun hvalid => absurd hvalid hv) ?_
    (fun hsame _ _ => hdrop hsame) (fun hsame _ => hdrop hsame) ?_ (fun _ _ _ hd => hdirty ▸ hd)
    hp hlook
  · exact fun r hr => ⟨by rwa [hheld, ← hpc'], fun _ => hexcl⟩
  · intro r hr
    rcases h.mapped r e hr with hown | ⟨q, hq⟩
    · -- The entry was that of the relation itself, and now the process goes to unmap it.
      obtain rfl : r = rel := hown.2.symm.trans howns.2
      exact .inr (.inl hbusy)
    · exact .inr (.inr ⟨q, fun heq => hidle r e (heq ▸ hq), hq⟩)
  · rcases hgen with hgen | hgen <;> omega
  · exact fun q _ => ⟨fun hvalid => absurd hvalid hv,
      fun _ hlock => absurd hlock (by simp [hunlocked])⟩

/-- The mapping of a relation is removed. -/
theorem remove {pc pc' : Pc} {rel e : Nat} (hpc : c.pc p = pc)
    (hheld : pc.held = some rel) (hexcl : pc.exclusive = true)
    (hbusy : ∀ r e', pc.Busy r e' → r = rel) (hmap : c.mapping rel = some e)
    (hnot : ¬ c.Owns rel e) (hpc' : pc'.held = none)
    (hlook : pc'.looking = none ∨ pc'.looking = pc.looking)
    (hp : PcOk good (acc p) ((c.setMapping rel none).goto p pc') pc') :
    Core part good acc ((c.setMapping rel none).goto p pc') := by
  have hne {q : Fin n} (hq : q ≠ p) : ((c.setMapping rel none).goto p pc').pc q = c.pc q := by
    rw [Cache.pc_goto_of_ne _ _ _ hq, Cache.pc_setMapping]
  have hmapping {r : Nat} (hr : r ≠ rel) :
      ((c.setMapping rel none).goto p pc').mapping r = c.mapping r :=
    update_of_ne hr _ _
  have hgone : ((c.setMapping rel none).goto p pc').mapping rel = none :=
    update_self _ _ _
  have hother {r e' : Nat} (hr : ((c.setMapping rel none).goto p pc').mapping r = some e') :
      r ≠ rel := by
    rintro rfl
    rw [hgone] at hr
    cases hr
  refine h.build (fun q hq => hne hq) ?_ ?_ ?_ ?_ ?_ ?_ ?_ ?_ ?_
  · refine Mutex.keep h.mutex fun r hr => ?_
    rw [hpc'] at hr
    cases hr
  · intro r e' hr
    have hr' := hother hr
    rw [hmapping hr'] at hr
    refine (h.mapped r e' hr).imp id fun ⟨q, hq⟩ => ⟨q, ?_⟩
    have hqp : q ≠ p := fun heq => hr' (hbusy r e' (hpc ▸ heq ▸ hq))
    rwa [hne hqp]
  · intro r e' hown
    have hr := h.valid r e' hown
    have hr' : r ≠ rel := by
      rintro rfl
      obtain rfl : e' = e := some.inj (hr.symm.trans hmap)
      exact hnot hown
    exact (hmapping hr').trans hr
  · intro r e' fork m hr hown hm
    rw [hmapping (hother hr)] at hr
    exact h.known r e' fork m hr hown hm
  · intro q r ref href
    rw [Cache.refs_goto] at href
    refine (h.refs q r ref href).frame (fun _ => le_rfl) ?_ fun _ _ hdrop => hdrop
    intro e' _ hr hown
    have hr' : r ≠ rel := by
      rintro rfl
      obtain rfl : e' = e := some.inj (hr.symm.trans hmap)
      exact hnot hown
    exact .inl ⟨(hmapping hr').trans hr, hown⟩
  · intro q hq
    refine { Compat.refl c _ with mapping := fun r hr => hmapping ?_ }
    rintro rfl
    exact h.mutex p q hq.symm (hpc ▸ hexcl) r (by simp [hpc, hheld]) r hr rfl
  · exact fun _ _ _ _ _ _ _ _ hd => hd
  · rwa [Cache.pc_goto_self]
  · rw [Cache.pc_goto_self]
    exact h.looks_of_eq (hpc ▸ hlook)

variable {e : Nat}

/-- A relation without an entry gets one. -/
theorem enter {t : Task} (hpc : c.pc p = .putEnter t e) (hmap : c.mapping t.rel = none)
    (hunlocked : (c.entries e).locked = false) (hinvalid : (c.entries e).valid = false)
    (hvalid : entry.valid = false) (hlocked : entry.locked = true) (hrel : entry.rel = t.rel)
    (hgen : entry.generation = (c.entries e).generation + 1) :
    Core part good acc (((c.setMapping t.rel (some e)).setEntry e entry).goto p (.putFill t e)) := by
  set c' := ((c.setMapping t.rel (some e)).setEntry e entry).goto p (.putFill t e) with hc'
  have hne {q : Fin n} (hq : q ≠ p) : c'.pc q = c.pc q := by
    rw [Cache.pc_goto_of_ne _ _ _ hq, Cache.pc_setEntry, Cache.pc_setMapping]
  have hself : c'.entries e = entry := update_self _ _ _
  have hentry {e' : Nat} (he : e' ≠ e) : c'.entries e' = c.entries e' :=
    update_of_ne he _ _
  have hnew : c'.mapping t.rel = some e := update_self _ _ _
  have hmapping {r : Nat} (hr : r ≠ t.rel) : c'.mapping r = c.mapping r :=
    update_of_ne hr _ _
  have hpc' : c'.pc p = .putFill t e := Cache.pc_goto_self _ _ _
  have hother {r e' : Nat} (hown : c'.Owns r e') : e' ≠ e := by
    rintro rfl
    rw [Cache.Owns, hself, hvalid] at hown
    cases hown.1
  have hfree {r e' : Nat} (hown : c.Owns r e') : e' ≠ e := by
    rintro rfl
    exact absurd hown.1 (by simp [hinvalid])
  refine h.build (fun q hq => hne hq) ?_ ?_ ?_ ?_ ?_ ?_ ?_ ?_ ?_
  · refine Mutex.keep (c := (c.setMapping t.rel (some e)).setEntry e entry) h.mutex fun r hr => ?_
    rw [Cache.pc_setEntry, Cache.pc_setMapping, hpc]
    exact ⟨hr, fun _ => rfl⟩
  · intro r e' hr
    by_cases hrt : r = t.rel
    · subst hrt
      obtain rfl : e = e' := some.inj (hnew.symm.trans hr)
      exact .inr ⟨p, by rw [hpc']; exact ⟨rfl, rfl⟩⟩
    · rw [hmapping hrt] at hr
      rcases h.mapped r e' hr with hown | ⟨q, hq⟩
      · exact .inl (by rwa [Cache.Owns, hentry (hfree hown)])
      · have hqp : q ≠ p := by
          rintro rfl
          rwa [hpc] at hq
        exact .inr ⟨q, by rwa [hne hqp]⟩
  · intro r e' hown
    have he := hother hown
    rw [Cache.Owns, hentry he] at hown
    have hr := h.valid r e' hown
    have hrt : r ≠ t.rel := by
      rintro rfl
      rw [hmap] at hr
      cases hr
    exact (hmapping hrt).trans hr
  · intro r e' fork m hr hown hm
    have he := hother hown
    have hrt : r ≠ t.rel := by
      rintro rfl
      exact he (some.inj (hr.symm.trans hnew))
    rw [Cache.Owns, hentry he] at hown
    rw [hentry he] at hm
    exact h.known r e' fork m ((hmapping hrt).symm.trans hr) hown hm
  · intro q r ref href
    rw [Cache.refs_goto] at href
    refine (h.refs q r ref href).frame ?_ ?_ ?_
    · intro e'
      by_cases he : e' = e
      · subst he
        rw [hself, hgen]
        exact Nat.le_succ _
      · rw [hentry he]
    · intro e' _ hr hown
      have hrt : r ≠ t.rel := by
        rintro rfl
        rw [hmap] at hr
        cases hr
      exact .inl ⟨(hmapping hrt).trans hr, by rwa [Cache.Owns, hentry (hfree hown)]⟩
    · intro e' hsame hdrop
      have he : e' ≠ e := by
        rintro rfl
        rw [hself] at hsame
        omega
      rwa [Cache.Dropped, hentry he]
  · intro q hq
    refine Compat.setEntry (fun r hr => hmapping ?_) rfl ?_ ?_ ?_
    · rintro rfl
      exact h.mutex p q hq.symm (by rw [hpc]; rfl) t.rel (by rw [hpc]; rfl) t.rel hr rfl
    · rw [hgen]
      exact Nat.le_succ _
    · exact fun hv => absurd hv (by simp [hvalid])
    · exact fun _ hlock => absurd hlock (by simp [hunlocked])
  · intro q r fork e' m _ _ hown hd
    rwa [hentry (hfree hown)]
  · rw [hpc']
    refine ⟨hnew, ?_, ?_, ?_⟩ <;> rw [hself] <;> assumption
  · rw [hpc']
    exact h.looks_of_eq (.inr (by rw [hpc]; rfl))

/-- An entry that is not valid changes, where no process looks. -/
theorem setInvalid (hbusy : ∀ r e', ¬ (c.pc p).Busy r e') (hinvalid : (c.entries e).valid = false)
    (hvalid : entry.valid = false) (hlocked : entry.locked = (c.entries e).locked)
    (hrel : entry.rel = (c.entries e).rel) (hgen : entry.generation = (c.entries e).generation)
    (hnblocks : entry.nblocks = (c.entries e).nblocks) (hheld : pc.held = none)
    (hlook : pc.looking = none ∨ pc.looking = (c.pc p).looking)
    (hp : PcOk good (acc p) ((c.setEntry e entry).goto p pc) pc) :
    Core part good acc ((c.setEntry e entry).goto p pc) := by
  have hv : ¬ entry.valid = true := by simp [hvalid]
  have hfree {r : Nat} : ¬ c.Owns r e := fun hown => absurd hown.1 (by simp [hinvalid])
  refine h.setEntry (by simp [hheld]) ?_ (fun r e' _ => hbusy r e') (fun hv' => absurd hv' hv) hgen.ge
    (fun _ r hown => absurd hown hfree) ?_ ?_ (fun _ _ hown => absurd hown hfree) hp hlook
  · intro r hr
    rcases h.mapped r e hr with hown | ⟨q, hq⟩
    · exact absurd hown hfree
    · exact .inr (.inr ⟨q, fun heq => hbusy r e (heq ▸ hq), hq⟩)
  · rintro - ⟨-, hfree, hnone⟩
    exact ⟨hvalid, hlocked.trans hfree, hnblocks ▸ hnone⟩
  · exact fun q _ => ⟨fun hv' => absurd hv' hv, fun _ hlock _ => ⟨hlocked.trans hlock, hrel, hvalid⟩⟩

/-- A new entry gets its lengths and becomes valid. -/
theorem fill {t : Task} (hpc : c.pc p = .putFill t e) (hrel : entry.rel = (c.entries e).rel)
    (hgen : entry.generation = (c.entries e).generation)
    (hgood : ∀ fork m, entry.nblocks fork = some m → good t.rel fork m)
    (hvalid : entry.valid = true) (hheld : pc.held = none)
    (hlook : pc.looking = none ∨ pc.looking = t.looking)
    (hp : PcOk good (acc p) ((c.setEntry e entry).goto p pc) pc) :
    Core part good acc ((c.setEntry e entry).goto p pc) := by
  obtain ⟨hmap, hlocked, hrelt, hinvalid⟩ : PcOk good (acc p) c (.putFill t e) := hpc ▸ h.pcs p
  have hfree {r : Nat} : ¬ c.Owns r e := fun hown => absurd hown.1 (by simp [hinvalid])
  have hentry : entry.rel = t.rel := hrel.trans hrelt
  have hexcl {q : Fin n} (hq : q ≠ p) : t.rel ∉ (c.pc q).held :=
    h.not_held (by rw [hpc]; rfl) (by rw [hpc]; rfl) hq
  refine h.setEntry (by simp [hheld]) ?_ ?_ (fun _ => hentry ▸ ⟨hmap, hgood⟩) hgen.ge
    (fun _ r hown => absurd hown hfree) ?_ ?_ (fun _ _ hown => absurd hown hfree) hp (hpc ▸ hlook)
  · intro r hr
    rcases h.mapped r e hr with hown | ⟨q, hq⟩
    · exact absurd hown hfree
    · by_cases hqp : q = p
      · subst hqp
        rw [hpc] at hq
        exact .inl ⟨hvalid, hentry.trans hq.2⟩
      · exact .inr (.inr ⟨q, hqp, hq⟩)
  · intro r e' he hbusy
    rw [hpc] at hbusy
    exact he hbusy.1.symm
  · rintro - ⟨-, hunlocked, -⟩
    exact absurd hlocked (by simp [hunlocked])
  · exact fun q hq => ⟨fun _ => hentry ▸ hexcl hq, fun hr => absurd (hrelt ▸ hr) (hexcl hq)⟩

/-- The files change, and with them what may be cached and what may be returned. -/
theorem env (hknown : ∀ rel e fork m, c.mapping rel = some e → c.Owns rel e →
      (c.entries e).nblocks fork = some m → good rel fork m → good' rel fork m)
    (hstore : ∀ q rel fork e m, c.pc q = .store (.lookup rel fork) e m → good rel fork m →
      (c.entries e).dirty fork = true ∨ good' rel fork m)
    (hacc : ∀ q, c.pc q ≠ .idle → ∀ m, acc q m → acc' q m)
    (hlooks : ∀ q rel fork, (c.pc q).looking = some (rel, fork) → ∀ m, good' rel fork m →
      acc' q m) : Core part good' acc' c where
  mutex := h.mutex
  mapped := h.mapped
  valid := h.valid
  known rel e fork m hmap hown hm :=
    hknown rel e fork m hmap hown hm (h.known rel e fork m hmap hown hm)
  refs := h.refs
  pcs q := by
    by_cases hidle : c.pc q = .idle
    · rw [hidle]
      trivial
    · refine h.pcOk_of_compat rfl (.refl c _) ?_ (hacc q hidle)
      intro rel fork e m hpc _ hor
      rcases hor with hdirty | hgood
      · exact .inl hdirty
      · exact hstore q rel fork e m hpc hgood
  looks := hlooks

theorem congr (hgood : ∀ rel fork m, good' rel fork m ↔ good rel fork m) : Core part good' acc c :=
  h.env (fun _ _ _ _ _ _ _ hm => (hgood _ _ _).mpr hm)
    (fun _ _ _ _ _ _ hm => .inr ((hgood _ _ _).mpr hm)) (fun _ _ _ hm => hm)
    fun q rel fork hlook m hm => h.looks q rel fork hlook m ((hgood _ _ _).mp hm)

end

/-- A length is stored in the entry of its relation. A sample of an earlier length is not stored any
more if the fork becomes dirty. -/
theorem write (h : Core part good acc c) {rel e m : Nat} {fork : Fork} {dirty : Bool}
    (hmap : c.mapping rel = some e) (hown : c.Owns rel e) (hgood : good' rel fork m)
    (hother : ∀ rel' fork' m', (rel', fork') ≠ (rel, fork) → good rel' fork' m' →
      good' rel' fork' m')
    (hdirty : dirty = true ∨
      dirty = (c.entries e).dirty fork ∧ ∀ m', good rel fork m' → good' rel fork m')
    (hacc : ∀ q m', acc q m' → acc' q m')
    (hlooks : ∀ q rel' fork', (c.pc q).looking = some (rel', fork') → ∀ m', good' rel' fork' m' →
      acc' q m') : Core part good' acc' (c.write e fork m dirty) := by
  set c' := c.write e fork m dirty with hc'
  have hentry {e' : Nat} (he : e' ≠ e) : c'.entries e' = c.entries e' :=
    update_of_ne he _ _
  have hself : c'.entries e = { c.entries e with
      nblocks := update (c.entries e).nblocks fork (some m)
      dirty := update (c.entries e).dirty fork dirty } := update_self _ _ _
  have hframe (e' : Nat) : (c'.entries e').valid = (c.entries e').valid ∧
      (c'.entries e').rel = (c.entries e').rel ∧ (c'.entries e').locked = (c.entries e').locked ∧
      (c'.entries e').generation = (c.entries e').generation := by
    by_cases he : e' = e
    · rw [he, hself]
      exact ⟨rfl, rfl, rfl, rfl⟩
    · rw [hentry he]
      exact ⟨rfl, rfl, rfl, rfl⟩
  have hgen (e' : Nat) := (hframe e').2.2.2
  have howns (r e' : Nat) : c'.Owns r e' ↔ c.Owns r e' := by
    rw [Cache.Owns, Cache.Owns, (hframe e').1, (hframe e').2.1]
  constructor
  · exact h.mutex
  · exact fun r e' hr => (h.mapped r e' hr).imp_left (howns r e').mpr
  · exact fun r e' hown' => h.valid r e' ((howns r e').mp hown')
  · intro r e' fork' m' hr hown' hm'
    have hold := (howns r e').mp hown'
    by_cases hsame : (r, fork') = (rel, fork)
    · obtain ⟨rfl, rfl⟩ := Prod.mk.inj hsame
      obtain rfl : e = e' := some.inj (hmap.symm.trans hr)
      rw [hself] at hm'
      simp only [update_self, some.injEq] at hm'
      exact hm' ▸ hgood
    · refine hother r fork' m' hsame (h.known r e' fork' m' hr hold ?_)
      by_cases he : e' = e
      · subst he
        have hfork : fork' ≠ fork := by
          rintro rfl
          exact hsame (by rw [← hold.2, hown.2])
        rw [hself] at hm'
        simpa only [update_of_ne hfork] using hm'
      · rwa [hentry he] at hm'
  · intro q r ref href
    refine (h.refs q r ref href).frame (fun e' => (hgen e').ge) ?_ ?_
    · exact fun e' _ hr hown' => .inl ⟨hr, (howns r e').mpr hown'⟩
    · intro e' _ hdrop
      have he : e' ≠ e := by
        rintro rfl
        exact absurd hown.1 (by simp [hdrop.1])
      rwa [Cache.Dropped, hentry he]
  · intro q
    refine h.pcOk_of_compat rfl ?_ ?_ (hacc q)
    · refine ⟨fun _ _ => rfl, fun e' => (hgen e').ge, fun r _ e' => (howns r e').mp, ?_⟩
      intro r _ e' hr hl hv
      obtain ⟨hvalid, hrel, hlocked, -⟩ := hframe e'
      exact ⟨hlocked.trans hl, hrel.trans hr, hvalid.trans hv⟩
    · intro r fork' e' m' (hpc : c.pc q = _) hown' hor
      by_cases hfork : e' = e ∧ fork' = fork
      · obtain ⟨rfl, rfl⟩ := hfork
        obtain rfl : r = rel := hown'.2.symm.trans hown.2
        rw [hself]
        simp only [update_self]
        rcases hdirty with rfl | ⟨rfl, hmono⟩
        · exact .inl rfl
        · exact hor.imp_right (hmono m')
      · have hpair : (r, fork') ≠ (rel, fork) := by
          intro heq
          obtain ⟨rfl, rfl⟩ := Prod.mk.inj heq
          have hq : PcOk good (acc q) c (.store (.lookup r fork') e' m') := hpc ▸ h.pcs q
          exact hfork ⟨some.inj (hq.1.symm.trans hmap), rfl⟩
        refine hor.imp (fun hd => ?_) (hother r fork' m' hpair)
        by_cases he : e' = e
        · subst he
          have hne : fork' ≠ fork := fun hf => hfork ⟨rfl, hf⟩
          rw [hself]
          simpa only [update_of_ne hne] using hd
        · rwa [hentry he]
  · exact hlooks

end Core

end Polar.SizeCache
