import Polar.SizeCache.Steps

/-!
# The cache on the primary

Backends extend and truncate the files, create them and drop them, and put the new lengths into the
cache. Changes of one relation exclude each other; lookups exclude nothing.
-/

namespace Polar.SizeCache.Primary

open Cache (pc pc_goto_of_ne pc_goto_self)

open Function List

variable {n : Nat}

/-- The cache and the files of the primary. -/
structure State (n : Nat) where
  cache : Cache n
  /-- The lengths of the files that exist. -/
  file : Nat → Fork → Option Nat
  /-- The length before a change of the file that is not in the cache yet. -/
  prior : Nat → Fork → Option Nat
  /-- The process that changes the relation. -/
  owner : Nat → Option (Fin n)
  /-- The lengths that the fork of a lookup has had since the lookup began. -/
  seen : Fin n → List Nat

/-- One step of a process of the primary. -/
inductive Op (n : Nat) where
  /-- `smgrnblocks` begins. -/
  | lookup (p : Fin n) (rel : Nat) (fork : Fork)
  /-- `smgrextend`, `smgrzeroextend` or `smgrtruncate` changes the file. -/
  | resize (p : Fin n) (rel : Nat) (fork : Fork) (nblocks : Nat)
  /-- `smgrcreate` creates the file. -/
  | create (p : Fin n) (rel : Nat) (fork : Fork)
  /-- `smgrdounlinkall` begins. -/
  | drop (p : Fin n) (rel : Nat)
  /-- The next step of a process in the cache, where a sweep picks the given entry. -/
  | cache (p : Fin n) (pick : Nat)
  /-- A process leaves the cache; `smgrdounlinkall` then unlinks the files. -/
  | finish (p : Fin n)
  /-- A process closes an `SMgrRelation`. -/
  | forget (p : Fin n) (rel : Nat)

namespace State

/-- The state of a primary whose files have the given lengths. -/
def init (n : Nat) (file : Nat → Fork → Option Nat) : State n :=
  { cache := Cache.init n, file, prior := fun _ _ => none, owner := fun _ => none
    seen := fun _ => [] }

/-- The length of the fork, and the length before a change that is in progress. -/
def view (s : State n) (rel : Nat) (fork : Fork) : List Nat :=
  (s.file rel fork).toList ++ (s.prior rel fork).toList

/-- The file gets a new length, which the lookups of the fork may return from now on. -/
def setLength (s : State n) (rel : Nat) (fork : Fork) (nblocks : Nat) : State n :=
  { s with
    file := setFork s.file rel fork (some nblocks)
    seen := fun q =>
      if (s.cache.pc q).looking = some (rel, fork) then nblocks :: s.seen q else s.seen q }

def setPrior (s : State n) (rel : Nat) (fork : Fork) (nblocks : Option Nat) : State n :=
  { s with prior := setFork s.prior rel fork nblocks }

/-- A process begins or ends a change of a relation. -/
def setOwner (s : State n) (rel : Nat) (p : Option (Fin n)) : State n :=
  { s with owner := update s.owner rel p }

def goto (s : State n) (p : Fin n) (pc : Pc) : State n := { s with cache := s.cache.goto p pc }

/-- The process leaves the cache. -/
def finish (s : State n) (p : Fin n) : Option (State n) :=
  match s.cache.pc p with
  | .returned _ _ _ => some (s.goto p .idle)
  | .resized rel _ => some ((s.setOwner rel none).goto p .idle)
  | .dropped rel =>
    some (({ s with file := update s.file rel fun _ => none }.setOwner rel none).goto p
      .idle)
  | _ => none

/-- A changed length that is stored is no longer in progress. -/
def stored (s : State n) : Pc → State n
  | .store (.resize rel fork _) _ _ => s.setPrior rel fork none
  | _ => s

/-- The steps of the primary, where `optimize` is `polar_rsc_optimize_drop_buffers`. -/
def step (par : Params) (optimize : Bool) (s : State n) : Op n → Option (State n)
  | .lookup p rel fork =>
    if s.cache.pc p = .idle then
      some ({ s with seen := update s.seen p (s.view rel fork) }.goto p
        (.readRef rel fork))
    else none
  | .resize p rel fork nblocks =>
    if s.cache.pc p = .idle ∧ s.owner rel = none then
      (s.file rel fork).map fun old =>
        (((s.setLength rel fork nblocks).setPrior rel fork (some old)).setOwner rel (some p)).goto
          p (.find (.resize rel fork nblocks))
    else none
  | .create p rel fork =>
    if s.cache.pc p = .idle ∧ s.owner rel = none ∧ s.file rel fork = none then
      if optimize then
        some (((s.setLength rel fork 0).setOwner rel (some p)).goto p (.find (.resize rel fork 0)))
      else some (s.setLength rel fork 0)
    else none
  | .drop p rel =>
    if s.cache.pc p = .idle ∧ s.owner rel = none then
      some ((s.setOwner rel (some p)).goto p (.dropLock rel))
    else none
  | .cache p pick =>
    (cacheStep par s.file s.cache p pick).map fun cache => { s.stored (s.cache.pc p) with cache }
  | .finish p => s.finish p
  | .forget p rel => some { s with cache := s.cache.setRef p rel none }

/-- Nobody is between the drop of the entry of the relation and the unlink of its files. -/
def Linked (s : State n) (rel : Nat) : Prop := ∀ q, s.cache.pc q ≠ .dropped rel

/-- What may be cached: the length of the fork, while its files are not about to be unlinked. -/
def Good (s : State n) (rel : Nat) (fork : Fork) (m : Nat) : Prop :=
  m ∈ s.view rel fork ∧ s.Linked rel

/-- What a lookup may return. -/
def Acc (s : State n) (p : Fin n) (m : Nat) : Prop := m ∈ s.seen p

end State

/-- The invariant of the primary. -/
structure Inv (par : Params) (s : State n) : Prop where
  core : Core par.part s.Good s.Acc s.cache
  owner : ∀ p rel, (s.cache.pc p).owned = some rel → s.owner rel = some p
  file : ∀ p rel fork m, (s.cache.pc p).resizing = some (rel, fork, m) → s.file rel fork = some m
  prior : ∀ rel fork old, s.prior rel fork = some old →
    ∃ p m, (s.cache.pc p).resizing = some (rel, fork, m)
  noInit : ∀ p rel, (s.cache.pc p).task ≠ some (.init rel)

namespace Inv

variable {par : Params} {s t : State n}

theorem init (file : Nat → Fork → Option Nat) : Inv par (State.init n file) where
  core := .init
  owner p rel h := by simp [State.init, Cache.init, pc, Pc.owned, Pc.task] at h
  file p rel fork m h := by simp [State.init, Cache.init, pc, Pc.resizing, Pc.task] at h
  prior rel fork old h := by simp [State.init] at h
  noInit p rel h := by simp [State.init, Cache.init, pc, Pc.task] at h

variable {rel : Nat}

theorem prior_eq_none (h : Inv par s) (hfree : s.owner rel = none) (fork : Fork) :
    s.prior rel fork = none := by
  cases hprior : s.prior rel fork with
  | none => rfl
  | some old =>
    obtain ⟨p, m, hp⟩ := h.prior rel fork old hprior
    have := h.owner p rel (Pc.owned_of_resizing hp)
    rw [hfree] at this
    cases this

theorem linked (h : Inv par s) {p : Fin n} (howner : s.owner rel = some p)
    (hp : s.cache.pc p ≠ .dropped rel) : s.Linked rel := by
  intro q hq
  have hown := h.owner q rel (by rw [hq]; rfl)
  rw [howner] at hown
  obtain rfl : p = q := Option.some.inj hown
  exact hp hq

/-- A process that is idle begins to change a relation that nobody changes. -/
theorem free (h : Inv par s) (hfree : s.owner rel = none) (q : Fin n) :
    (s.cache.pc q).owned ≠ some rel := by
  intro hq
  have hown := h.owner q rel hq
  rw [hfree] at hown
  cases hown

end Inv

/-- Whether the files of a relation are about to be unlinked depends on no other place. -/
theorem linked_goto {c : Cache n} {p : Fin n} {pc : Pc} {rel : Nat} (hold : c.pc p ≠ .dropped rel)
    (hnew : pc ≠ .dropped rel) :
    (∀ q, (c.goto p pc).pc q ≠ .dropped rel) ↔ ∀ q, c.pc q ≠ .dropped rel := by
  constructor
  · intro h q
    by_cases hq : q = p
    · exact hq ▸ hold
    · exact pc_goto_of_ne c p pc hq ▸ h q
  · intro h q
    by_cases hq : q = p
    · rwa [hq, pc_goto_self]
    · rw [pc_goto_of_ne c p pc hq]
      exact h q

namespace Inv

variable {par : Params} {s t : State n} {p : Fin n}

/-- A process goes on in the cache. -/
theorem cache {pick : Nat} {c : Cache n} (h : Inv par s)
    (hs : cacheStep par s.file s.cache p pick = some c)
    (hstore : ∀ rel fork m e k, s.cache.pc p ≠ .store (.resize rel fork m) e k)
    (hsample : ∀ rel fork e, s.cache.pc p = .sample rel fork e → s.Linked rel) :
    Inv par { s with cache := c } := by
  obtain ⟨hne, hfollows⟩ := follows_of_cacheStep hs
  have hresizing : (c.pc p).resizing = (s.cache.pc p).resizing := by
    refine hfollows.resizing.resolve_right ?_
    rintro ⟨rel, fork, m, e, k, hpc, -⟩
    exact hstore rel fork m e k hpc
  have hresize (q : Fin n) : (c.pc q).resizing = (s.cache.pc q).resizing := by
    by_cases hq : q = p
    · exact hq ▸ hresizing
    · rw [hne q hq]
  have howned (q : Fin n) : (c.pc q).owned = (s.cache.pc q).owned := by
    by_cases hq : q = p
    · exact hq ▸ hfollows.owned
    · rw [hne q hq]
  have hcore : Core par.part s.Good s.Acc c := by
    refine h.core.cacheStep hs ?_ ?_ ?_
    · intro rel fork e m hpc hm
      exact ⟨by simp [State.view, hm], hsample rel fork e hpc⟩
    · exact fun rel fork e m hpc => absurd hpc (hstore rel fork m e m)
    · intro t e hpc fork m hm
      cases t with
      | lookup | resize => cases hm
      | init rel => exact absurd (by rw [hpc]; rfl) (h.noInit p rel)
  -- Only the relation that a drop has left without a mapping may not be cached any more.
  have hlinked {rel : Nat} (hmap : c.mapping rel ≠ none) (hlink : s.Linked rel) (q : Fin n) :
      c.pc q ≠ .dropped rel := by
    by_cases hq : q = p
    · subst hq
      exact fun hpc => hmap (mapping_eq_none_of_dropped hs hpc)
    · rw [hne q hq]
      exact hlink q
  refine ⟨hcore.env ?_ ?_ (fun _ _ _ hm => hm) ?_, ?_, ?_, ?_, ?_⟩
  · intro rel e fork m hmap _ _ hgood
    exact ⟨hgood.1, hlinked (by simp [hmap]) hgood.2⟩
  · intro q rel fork e m hpc hgood
    have hq : PcOk s.Good (s.Acc q) c (.store (.lookup rel fork) e m) := hpc ▸ hcore.pcs q
    exact .inr ⟨hgood.1, hlinked (by simp [hq.1]) hgood.2⟩
  · intro q rel fork hlook m hgood
    refine hcore.looks q rel fork hlook m ⟨hgood.1, fun q' => ?_⟩
    by_cases hq : q' = p
    · exact hq ▸ ne_dropped_of_cacheStep hs rel
    · exact hne q' hq ▸ hgood.2 q'
  · exact fun q rel hq => h.owner q rel (howned q ▸ hq)
  · exact fun q rel fork m hq => h.file q rel fork m (hresize q ▸ hq)
  · intro rel fork old hprior
    obtain ⟨q, m, hq⟩ := h.prior rel fork old hprior
    exact ⟨q, m, (hresize q).trans hq⟩
  · intro q rel hq
    by_cases hqp : q = p
    · subst hqp
      exact h.noInit q rel (hfollows.task rel hq)
    · exact h.noInit q rel (hne q hqp ▸ hq)

theorem view_setPrior_of_ne (s : State n) {rel rel' : Nat} {fork fork' : Fork} {m : Option Nat}
    (h : (rel', fork') ≠ (rel, fork)) :
    (s.setPrior rel fork m).view rel' fork' = s.view rel' fork' := by
  simp only [State.view, State.setPrior, setFork_of_ne _ _ h]

theorem view_setLength_of_ne (s : State n) {rel rel' m : Nat} {fork fork' : Fork}
    (h : (rel', fork') ≠ (rel, fork)) :
    (s.setLength rel fork m).view rel' fork' = s.view rel' fork' := by
  simp only [State.view, State.setLength, setFork_of_ne _ _ h]

/-- A process moves, and what it changes and what it looks up stay the same. -/
theorem moved (h : Inv par s) {pc : Pc} (hmutex : Mutex par.part (s.cache.goto p pc))
    (hbusy : ∀ rel e, ¬ (s.cache.pc p).Busy rel e) (hp : PcOk s.Good (s.Acc p) s.cache pc)
    (hlook : pc.looking = none) (hlinked : ∀ rel, s.cache.pc p ≠ .dropped rel)
    (hlinked' : ∀ rel, pc ≠ .dropped rel) :
    Core par.part (s.goto p pc).Good s.Acc (s.cache.goto p pc) :=
  (h.core.goto hmutex hbusy hp (.inl hlook)).congr fun rel _ _ =>
    and_congr_right fun _ => linked_goto (hlinked rel) (hlinked' rel)

/-- One process takes a step, and changes at most what it owns. -/
theorem build (h : Inv par s) (hcore : Core par.part t.Good t.Acc t.cache)
    (hne : ∀ q, q ≠ p → t.cache.pc q = s.cache.pc q)
    (hown : ∀ rel, (t.cache.pc p).owned = some rel → t.owner rel = some p)
    (howner : ∀ q rel, q ≠ p → (s.cache.pc q).owned = some rel → t.owner rel = s.owner rel)
    (hresize : ∀ rel fork m, (t.cache.pc p).resizing = some (rel, fork, m) →
      t.file rel fork = some m)
    (hfile : ∀ q rel fork m, q ≠ p → (s.cache.pc q).resizing = some (rel, fork, m) →
      t.file rel fork = s.file rel fork)
    (hprior : ∀ rel fork old, t.prior rel fork = some old →
      (∃ m, (t.cache.pc p).resizing = some (rel, fork, m)) ∨
        s.prior rel fork = some old ∧ ∀ m, (s.cache.pc p).resizing ≠ some (rel, fork, m))
    (hinit : ∀ rel, (t.cache.pc p).task ≠ some (.init rel)) : Inv par t where
  core := hcore
  owner q rel hq := by
    by_cases hqp : q = p
    · subst hqp
      exact hown rel hq
    · rw [hne q hqp] at hq
      rw [howner q rel hqp hq]
      exact h.owner q rel hq
  file q rel fork m hq := by
    by_cases hqp : q = p
    · subst hqp
      exact hresize rel fork m hq
    · rw [hne q hqp] at hq
      rw [hfile q rel fork m hqp hq]
      exact h.file q rel fork m hq
  prior rel fork old hold := by
    rcases hprior rel fork old hold with ⟨m, hm⟩ | ⟨hold, hp⟩
    · exact ⟨p, m, hm⟩
    · obtain ⟨q, m, hq⟩ := h.prior rel fork old hold
      have hqp : q ≠ p := by
        rintro rfl
        exact hp m hq
      exact ⟨q, m, by rw [hne q hqp]; exact hq⟩
  noInit q rel hq := by
    by_cases hqp : q = p
    · subst hqp
      exact hinit rel hq
    · exact h.noInit q rel (hne q hqp ▸ hq)

/-- The changed length is stored, and the change is no longer in progress. -/
theorem store {rel m m' e : Nat} {fork : Fork} (h : Inv par s)
    (hpc : s.cache.pc p = .store (.resize rel fork m') e m) :
    Inv par { s.setPrior rel fork none with
      cache := (s.cache.write e fork m true).goto p (.resized rel fork) } := by
  obtain ⟨hmap, rfl⟩ : PcOk s.Good (s.Acc p) s.cache (.store (.resize rel fork m') e m) :=
    hpc ▸ h.core.pcs p
  have hfile : s.file rel fork = some m := h.file p rel fork m (by rw [hpc]; rfl)
  have howner : s.owner rel = some p := h.owner p rel (by rw [hpc]; rfl)
  have hlinked : s.Linked rel := h.linked howner (by simp [hpc])
  have hview : (s.setPrior rel fork none).view rel fork = [m] := by
    simp [State.view, State.setPrior, hfile]
  have hne {q : Fin n} (hq : q ≠ p) :
      ((s.cache.write e fork m true).goto p (.resized rel fork)).pc q = s.cache.pc q :=
    pc_goto_of_ne _ _ _ hq
  have hwrite : Core par.part (s.setPrior rel fork none).Good s.Acc (s.cache.write e fork m true) := by
    refine h.core.write hmap (h.core.owns_of_held hpc rfl id hmap) ?_ ?_ (.inl rfl)
      (fun _ _ hm => hm) ?_
    · exact ⟨by simp [hview], hlinked⟩
    · intro rel' fork' m' hother hgood
      exact ⟨by rw [view_setPrior_of_ne s hother]; exact hgood.1, hgood.2⟩
    · intro q rel' fork' hlook m' hgood
      refine h.core.looks q rel' fork' hlook m' ⟨?_, hgood.2⟩
      by_cases hsame : (rel', fork') = (rel, fork)
      · obtain ⟨rfl, rfl⟩ := Prod.mk.inj hsame
        have hm' := hgood.1
        rw [hview, mem_singleton] at hm'
        simp [State.view, hfile, hm']
      · rw [← view_setPrior_of_ne s hsame]
        exact hgood.1
  have hgoto : Core par.part (s.setPrior rel fork none).Good s.Acc
      ((s.cache.write e fork m true).goto p (.resized rel fork)) :=
    hwrite.leave hpc trivial
  refine h.build ?_ (fun q hq => hne hq) ?_ ?_ ?_ ?_ ?_ ?_
  · exact hgoto.congr fun r _ _ => and_congr_right fun _ => linked_goto (hpc ▸ by simp) (by simp)
  · intro r hr
    rw [pc_goto_self] at hr
    cases hr
    exact howner
  · exact fun _ _ _ _ => rfl
  · intro r f k hr
    rw [pc_goto_self] at hr
    cases hr
  · exact fun _ _ _ _ _ _ => rfl
  · intro r f old hprior
    have hother : (r, f) ≠ (rel, fork) := by
      intro heq
      obtain ⟨rfl, rfl⟩ := Prod.mk.inj heq
      simp [State.setPrior] at hprior
    have hold : s.prior r f = some old := (setFork_of_ne s.prior none hother).symm.trans hprior
    refine .inr ⟨hold, fun k hk => ?_⟩
    rw [hpc] at hk
    cases hk
    exact hother rfl
  · intro r
    simp [Pc.task]

/-- A file gets longer or shorter: the old lengths stay good, and the new one may be returned. -/
theorem grow {c : Cache n} (h : Core par.part s.Good s.Acc c)
    (hlink : ∀ rel, t.Linked rel ↔ s.Linked rel)
    (hview : ∀ rel fork m, m ∈ s.view rel fork → m ∈ t.view rel fork)
    (hseen : ∀ q m, m ∈ s.seen q → m ∈ t.seen q)
    (hnew : ∀ q rel fork m, (c.pc q).looking = some (rel, fork) → m ∈ t.view rel fork →
      m ∈ s.view rel fork ∨ m ∈ t.seen q) : Core par.part t.Good t.Acc c := by
  refine h.env ?_ ?_ (fun q _ => hseen q) ?_
  · exact fun rel _ fork m _ _ _ hgood => ⟨hview rel fork m hgood.1, (hlink rel).mpr hgood.2⟩
  · exact fun _ rel fork _ m _ hgood => .inr ⟨hview rel fork m hgood.1, (hlink rel).mpr hgood.2⟩
  · intro q rel fork hlook m hgood
    rcases hnew q rel fork m hlook hgood.1 with hold | hm
    · exact hseen q m (h.looks q rel fork hlook m ⟨hold, (hlink rel).mp hgood.2⟩)
    · exact hm

theorem mem_seen_setLength (s : State n) (rel : Nat) (fork : Fork) (m : Nat) {q : Fin n} {k : Nat}
    (h : k ∈ s.seen q) : k ∈ (s.setLength rel fork m).seen q := by
  simp only [State.setLength]
  split
  · exact mem_cons_of_mem _ h
  · exact h

theorem new_mem_seen_setLength (s : State n) {rel : Nat} {fork : Fork} (m : Nat) {q : Fin n}
    (h : (s.cache.pc q).looking = some (rel, fork)) : m ∈ (s.setLength rel fork m).seen q := by
  simp only [State.setLength, if_pos h]
  exact mem_cons_self

section

variable (h : Inv par s)
include h

variable {p : Fin n} {rel : Nat} {fork : Fork}

theorem lookup (hidle : s.cache.pc p = .idle) :
    Inv par ({ s with seen := update s.seen p (s.view rel fork) }.goto p
      (.readRef rel fork)) := by
  have hne {q : Fin n} (hq : q ≠ p) : (s.cache.goto p (.readRef rel fork)).pc q = s.cache.pc q :=
    pc_goto_of_ne _ _ _ hq
  have hcore : Core par.part s.Good
      ({ s with seen := update s.seen p (s.view rel fork) } : State n).Acc s.cache := by
    refine h.core.env (fun _ _ _ _ _ _ _ hm => hm) (fun _ _ _ _ _ _ hm => .inr hm) ?_ ?_
    · intro q hq m hm
      have hqp : q ≠ p := fun heq => hq (heq ▸ hidle)
      simpa [State.Acc, hqp] using hm
    · intro q r f hlook m hm
      have hqp : q ≠ p := by
        rintro rfl
        rw [hidle] at hlook
        cases hlook
      simpa [State.Acc, hqp] using h.core.looks q r f hlook m hm
  refine h.build ?_ (fun q hq => hne hq) ?_ (fun _ _ _ _ => rfl) ?_ (fun _ _ _ _ _ _ => rfl)
    ?_ ?_
  · refine (hcore.begin hidle fun m hm => ?_).congr fun r _ _ => and_congr_right fun _ =>
      linked_goto (by simp [hidle]) (by simp)
    simpa [State.Acc] using hm.1
  · simp [State.goto, Pc.owned, Pc.task]
  · simp [State.goto, Pc.resizing, Pc.task]
  · exact fun r f old hold => .inr ⟨hold, by simp [hidle, Pc.resizing, Pc.task]⟩
  · simp [State.goto, Pc.task]

/-- A file is changed or created, and the new length is to be stored. -/
theorem resize {rel m : Nat} {old : Option Nat}
    (hidle : s.cache.pc p = .idle) (hfree : s.owner rel = none) (hfile : s.file rel fork = old) :
    Inv par ((((s.setLength rel fork m).setPrior rel fork old).setOwner rel (some p)).goto p
      (.find (.resize rel fork m))) := by
  set t := (((s.setLength rel fork m).setPrior rel fork old).setOwner rel (some p)).goto p
    (.find (.resize rel fork m)) with ht
  have hne {q : Fin n} (hq : q ≠ p) : t.cache.pc q = s.cache.pc q := pc_goto_of_ne _ _ _ hq
  have hpc : t.cache.pc p = .find (.resize rel fork m) := pc_goto_self _ _ _
  have hgoto : Core par.part s.Good s.Acc t.cache :=
    h.core.leave hidle trivial
  have hview : t.view rel fork = m :: old.toList := by
    simp [ht, State.view, State.goto, State.setOwner, State.setPrior, State.setLength]
  have hold : s.view rel fork = old.toList := by
    simp [State.view, hfile, h.prior_eq_none hfree]
  have hother {r : Nat} {f : Fork} (hrf : (r, f) ≠ (rel, fork)) : t.view r f = s.view r f :=
    (view_setPrior_of_ne (s.setLength rel fork m) hrf).trans (view_setLength_of_ne s hrf)
  refine h.build ?_ (fun q hq => hne hq) ?_ ?_ ?_ ?_ ?_ ?_
  · refine grow hgoto ?_ ?_ ?_ ?_
    · exact fun r => linked_goto (c := s.cache) (by simp [hidle]) (by simp)
    · intro r f k hk
      by_cases hrf : (r, f) = (rel, fork)
      · obtain ⟨rfl, rfl⟩ := Prod.mk.inj hrf
        rw [hold] at hk
        rw [hview]
        exact mem_cons_of_mem _ hk
      · rwa [hother hrf]
    · exact fun q k hk => mem_seen_setLength s rel fork m hk
    · intro q r f k hlook hk
      by_cases hrf : (r, f) = (rel, fork)
      · obtain ⟨rfl, rfl⟩ := Prod.mk.inj hrf
        have hqp : q ≠ p := by
          rintro rfl
          rw [hpc] at hlook
          cases hlook
        rw [hne hqp] at hlook
        rw [hview, mem_cons] at hk
        rcases hk with rfl | hk
        · exact .inr (new_mem_seen_setLength s k hlook)
        · exact .inl (by rwa [hold])
      · exact .inl (hother hrf ▸ hk)
  · intro r hr
    rw [hpc] at hr
    cases hr
    exact update_self _ _ _
  · intro q r _ hq
    have hr : r ≠ rel := fun heq => h.free hfree q (heq ▸ hq)
    exact update_of_ne hr _ _
  · intro r f k hr
    rw [hpc] at hr
    cases hr
    simp [ht, State.goto, State.setOwner, State.setPrior, State.setLength]
  · intro q r f k _ hq
    have hr : r ≠ rel := fun heq => h.free hfree q (heq ▸ Pc.owned_of_resizing hq)
    exact setFork_of_ne _ _ fun hrf => hr (Prod.mk.inj hrf).1
  · intro r f old' hprior
    by_cases hrf : (r, f) = (rel, fork)
    · obtain ⟨rfl, rfl⟩ := Prod.mk.inj hrf
      exact .inl ⟨m, by rw [hpc]; rfl⟩
    · refine .inr ⟨?_, by simp [hidle, Pc.resizing, Pc.task]⟩
      exact (setFork_of_ne s.prior old hrf).symm.trans hprior
  · intro r
    rw [hpc]
    simp [Pc.task]

theorem create (hfree : s.owner rel = none)
    (hfile : s.file rel fork = none) : Inv par (s.setLength rel fork 0) := by
  have hview : s.view rel fork = [] := by
    simp [State.view, hfile, h.prior_eq_none hfree]
  have hnew : (s.setLength rel fork 0).view rel fork = [0] := by
    simp [State.view, State.setLength, h.prior_eq_none hfree]
  refine { h with core := grow h.core (fun _ => Iff.rfl) ?_ ?_ ?_, file := ?_ }
  · intro r f k hk
    by_cases hrf : (r, f) = (rel, fork)
    · obtain ⟨rfl, rfl⟩ := Prod.mk.inj hrf
      rw [hview] at hk
      cases hk
    · rwa [view_setLength_of_ne s hrf]
  · exact fun q k hk => mem_seen_setLength s rel fork 0 hk
  · intro q r f k hlook hk
    by_cases hrf : (r, f) = (rel, fork)
    · obtain ⟨rfl, rfl⟩ := Prod.mk.inj hrf
      rw [hnew, mem_singleton] at hk
      exact .inr (hk ▸ new_mem_seen_setLength s 0 hlook)
    · exact .inl (view_setLength_of_ne s hrf ▸ hk)
  · intro q r f k hq
    have hr : r ≠ rel := fun heq => h.free hfree q (heq ▸ Pc.owned_of_resizing hq)
    exact (setFork_of_ne _ _ fun hrf => hr (Prod.mk.inj hrf).1).trans (h.file q r f k hq)

theorem drop (hidle : s.cache.pc p = .idle)
    (hfree : s.owner rel = none) : Inv par ((s.setOwner rel (some p)).goto p (.dropLock rel)) := by
  have hpc : (s.cache.goto p (.dropLock rel)).pc p = .dropLock rel := pc_goto_self _ _ _
  refine h.build ?_ (fun q hq => pc_goto_of_ne _ _ _ hq) ?_ ?_ ?_
    (fun _ _ _ _ _ _ => rfl) ?_ ?_
  · exact h.moved (h.core.mutex.keep (by simp [Pc.held])) (by simp [hidle, Pc.Busy]) trivial rfl
      (by simp [hidle]) (by simp)
  · intro r hr
    rw [State.goto, State.setOwner, hpc] at hr
    cases hr
    exact update_self _ _ _
  · intro q r _ hq
    have hr : r ≠ rel := fun heq => h.free hfree q (heq ▸ hq)
    exact update_of_ne hr _ _
  · simp [State.goto, Pc.resizing, Pc.task]
  · exact fun r f old hold => .inr ⟨hold, by simp [hidle, Pc.resizing, Pc.task]⟩
  · simp [State.goto, Pc.task]

/-- A process that owns no relation any more becomes idle. -/
theorem finish_of_core (hcore : Core par.part t.Good t.Acc t.cache)
    (hcache : t.cache = s.cache.goto p .idle) (hprior : t.prior = s.prior)
    (hresizing : (s.cache.pc p).resizing = none)
    (howner : ∀ q rel, q ≠ p → s.owner rel = some q → t.owner rel = some q ∧
      ∀ fork, t.file rel fork = s.file rel fork) : Inv par t := by
  have hidle : t.cache.pc p = .idle := by
    rw [hcache, pc_goto_self]
  refine h.build (p := p) hcore (fun q hq => ?_) ?_ ?_ ?_ ?_ ?_ ?_
  · rw [hcache, pc_goto_of_ne _ _ _ hq]
  · simp [hidle, Pc.owned, Pc.task]
  · intro q rel hq hown
    rw [(howner q rel hq (h.owner q rel hown)).1, h.owner q rel hown]
  · simp [hidle, Pc.resizing, Pc.task]
  · intro q rel fork m hq hres
    exact (howner q rel hq (h.owner q rel (Pc.owned_of_resizing hres))).2 fork
  · exact fun rel fork old hold => .inr ⟨hprior ▸ hold, by simp [hresizing]⟩
  · simp [hidle, Pc.task]

/-- A process is done with its relation. -/
theorem finish (hs : s.finish p = some t) : Inv par t := by
  unfold State.finish at hs
  split at hs
  · next hpc =>
    cases hs
    refine h.finish_of_core ?_ rfl rfl (by simp [hpc, Pc.resizing, Pc.task]) fun q rel _ hq =>
      ⟨hq, fun _ => rfl⟩
    exact h.moved (h.core.mutex.keep (by simp [Pc.held])) (by simp [hpc, Pc.Busy]) trivial rfl
      (by simp [hpc]) (by simp)
  · next rel fork hpc =>
    cases hs
    have howner : s.owner rel = some p := h.owner p rel (by rw [hpc]; rfl)
    refine h.finish_of_core ?_ rfl rfl (by simp [hpc, Pc.resizing, Pc.task]) fun q r hq hr => ⟨?_,
      fun _ => rfl⟩
    · exact h.moved (h.core.mutex.keep (by simp [Pc.held])) (by simp [hpc, Pc.Busy]) trivial rfl
        (by simp [hpc]) (by simp)
    · have hne : r ≠ rel := by
        rintro rfl
        exact hq (Option.some.inj (hr.symm.trans howner))
      exact (update_of_ne hne _ _).trans hr
  · next rel hpc =>
    cases hs
    have howner : s.owner rel = some p := h.owner p rel (by rw [hpc]; rfl)
    have hne {q : Fin n} {r : Nat} (hq : q ≠ p) (hr : s.owner r = some q) : r ≠ rel := by
      rintro rfl
      exact hq (Option.some.inj (hr.symm.trans howner))
    have hprior (fork : Fork) : s.prior rel fork = none := by
      cases hold : s.prior rel fork with
      | none => rfl
      | some old =>
        obtain ⟨q, m, hq⟩ := h.prior rel fork old hold
        obtain rfl : q = p :=
          Option.some.inj ((h.owner q rel (Pc.owned_of_resizing hq)).symm.trans howner)
        rw [hpc] at hq
        cases hq
    refine h.finish_of_core ?_ rfl rfl (by simp [hpc, Pc.resizing, Pc.task]) fun q r hq hr => ⟨?_, ?_⟩
    · have hgoto : Core par.part s.Good s.Acc (s.cache.goto p .idle) :=
        h.core.leave hpc trivial
      refine hgoto.congr fun r f m => ?_
      by_cases hr : r = rel
      · subst hr
        -- Nothing of the relation was good before the unlink, and it has no length after it.
        constructor
        · intro hgood
          have hm := hgood.1
          simp [State.view, State.goto, State.setOwner, hprior] at hm
        · exact fun hgood => absurd hpc (hgood.2 p)
      · refine and_congr ?_ (linked_goto (c := s.cache) ?_ (by simp))
        · simp [State.view, State.goto, State.setOwner, hr]
        · rw [hpc]
          intro heq
          exact hr (Pc.dropped.inj heq).symm
    · exact (update_of_ne (hne hq hr) _ _).trans hr
    · intro fork
      simp [State.goto, State.setOwner, hne hq hr]
  · cases hs

theorem forget :
    Inv par { s with cache := s.cache.setRef p rel none } := by
  have hpc : (s.cache.setRef p rel none).pc = s.cache.pc := Cache.pc_setRef _ _ _ _
  have hcore : Core par.part s.Good s.Acc (s.cache.setRef p rel none) := h.core.setRef (by simp)
  refine ⟨hcore.congr fun r f m => and_congr_right fun _ => ?_, ?_, ?_, ?_, ?_⟩
  · rw [State.Linked, State.Linked, hpc]
  · rw [hpc]
    exact h.owner
  · rw [hpc]
    exact h.file
  · rw [hpc]
    exact h.prior
  · rw [hpc]
    exact h.noInit

end

end Inv

end Polar.SizeCache.Primary
