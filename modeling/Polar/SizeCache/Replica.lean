import Polar.SizeCache.Steps

/-!
# The cache on a replica

The startup process of a replica keeps the lengths that are in the cache up to date with the records
that it replays. It does not ask for the length of a file. The files belong to the primary, which is
ahead of the replica: a lookup that finds no length in the cache reads a length of the future.
-/

namespace Polar.SizeCache.Replica

open List Function

variable {n : Nat}

/-- A block that a record refers to. -/
structure BlockRef where
  rel : Nat
  fork : Fork
  block : Nat
  deriving DecidableEq

/-- The kinds of records with block references that `polar_rsc_replica_redo_cb` tells apart. -/
inductive Info where
  | fpi
  | fpiForHint
  | heapInsert
  | heapUpdate
  | heapOther
  | heap2Visible
  | heap2MultiInsert
  | heap2Other
  | btreeSplitL
  | btreeSplitR
  | btreeNewroot
  | btreeOther
  | ginCreatePtree
  | ginSplit
  | ginInsertListpage
  | ginOther
  | gistPageSplit
  | gistOther
  | hash
  | seq
  | spgist
  | brin
  | generic
  deriving DecidableEq

/-- A WAL record, as far as the lengths go. -/
inductive Record where
  | blocks (info : Info) (refs : List BlockRef)
  /-- `XLOG_SMGR_CREATE`. -/
  | smgrCreate (rel : Nat) (fork : Fork)
  /-- `XLOG_SMGR_TRUNCATE`, with the new length of each fork. -/
  | smgrTruncate (rel : Nat) (forks : List (Fork × Nat))
  | smgrBulkExtend (rel : Nat)
  /-- The relations that a commit, an abort, or the drop of a database or a tablespace unlinks. -/
  | unlink (rels : List Nat)
  | other

/-- What the replay of a record does in the cache, one fork or one relation at a time. -/
inductive Item where
  /-- Blocks of a fork are touched; `polar_rsc_update_if_exists` is called for the last of them. -/
  | touch (rel : Nat) (fork : Fork) (blocks : List Nat) (update : Bool)
  /-- `polar_rsc_update_if_exists` after a truncation. -/
  | truncate (rel : Nat) (fork : Fork) (nblocks : Nat)
  /-- `polar_rsc_init_empty_entry`. -/
  | create (rel : Nat)
  /-- `polar_rsc_drop_entry` for a relation that is unlinked. -/
  | drop (rel : Nat)
  /-- `polar_rsc_drop_entry` for a relation whose length may have changed. -/
  | invalidate (rel : Nat)
  deriving DecidableEq

/-- One block reference. -/
def BlockRef.touch (b : BlockRef) (update : Bool) : Item := .touch b.rel b.fork [b.block] update

/-- `rsc_update_with_max_blkno`. -/
def updateWithMaxBlkno (refs : List BlockRef) : List Item :=
  match refs.getLast? with
  | none => []
  | some b => [.touch b.rel .main (refs.map BlockRef.block) true]

/-- The callbacks for records with block references. -/
def redoBlocks (refs : List BlockRef) : Info → List Item
  | .fpi | .fpiForHint => refs.map (BlockRef.touch · true)
  | .heapInsert | .heapUpdate | .heap2Visible | .heap2MultiInsert =>
    -- Only the length of the first block's fork is updated.
    match refs with
    | [] => []
    | b :: rest => b.touch true :: rest.map (BlockRef.touch · false)
  | .btreeSplitL | .btreeSplitR | .btreeNewroot | .ginCreatePtree | .ginSplit
  | .ginInsertListpage | .gistPageSplit => updateWithMaxBlkno refs
  | .heapOther | .heap2Other | .btreeOther | .ginOther | .gistOther =>
    refs.map (BlockRef.touch · false)
  | .hash | .seq | .spgist | .brin | .generic => refs.map fun b => .invalidate b.rel

/-- `polar_rsc_replica_redo_cb`, and the truncations and drops of the redo functions. -/
def redo : Record → List Item
  | .blocks info refs => redoBlocks refs info
  | .smgrCreate rel fork => if fork = .main then [.create rel] else []
  | .smgrTruncate rel forks => forks.map fun f => .truncate rel f.1 f.2
  | .smgrBulkExtend rel => [.invalidate rel]
  | .unlink rels => rels.map .drop
  | .other => []

/-- Blocks of each fork. -/
abbrev Blocks := Nat → Fork → List Nat

namespace Blocks

/-- A relation loses its blocks. -/
def clear (b : Blocks) (rel : Nat) : Blocks := update b rel fun _ => []

end Blocks

/-- The blocks that exist after an item. -/
def Item.make (made : Blocks) : Item → Blocks
  | touch rel fork blocks _ => setFork made rel fork (blocks ++ made rel fork)
  | truncate rel fork nblocks => setFork made rel fork ((made rel fork).filter (· < nblocks))
  | create rel | drop rel => made.clear rel
  | invalidate _ => made

/-- The blocks that were touched since the fork was created or truncated. -/
def Item.mark (touched : Blocks) : Item → Blocks
  | touch rel fork blocks _ => setFork touched rel fork (blocks ++ touched rel fork)
  | truncate rel fork _ => setFork touched rel fork []
  | create rel | drop rel => touched.clear rel
  | invalidate _ => touched

/-- The file has the blocks. -/
def covers (len : Option Nat) (blocks : List Nat) : Bool :=
  blocks.all fun b => len.any fun l => b < l

/-- The WAL from where replay begins. -/
structure Wal where
  records : List Record
  /-- The blocks that exist when replay begins. -/
  base : Blocks
  /-- The lengths of the files when replay begins. -/
  file : Nat → Fork → Option Nat
  base_covered : ∀ rel fork, covers (file rel fork) (base rel fork) = true
  /-- A record that does not update the cache touches blocks that exist. -/
  exists_of_touch : ∀ i rel fork blocks,
    (records.flatMap redo)[i]? = some (.touch rel fork blocks false) →
    ∀ b ∈ blocks, b ∈ (((records.flatMap redo).take i).foldl Item.make base) rel fork

namespace Wal

variable (wal : Wal)

/-- The WAL as single items. -/
def items : List Item := wal.records.flatMap redo

/-- The blocks that exist when some items are replayed. -/
def made (i : Nat) : Blocks := (wal.items.take i).foldl Item.make wal.base

/-- The blocks that the first items touch and leave. -/
def touched (i : Nat) : Blocks := (wal.items.take i).foldl Item.mark fun _ _ => []

end Wal

/-- The cache of the replica, and the files that the primary changes. -/
structure State (n : Nat) where
  cache : Cache n
  file : Nat → Fork → Option Nat
  /-- The number of items that the primary has written. -/
  written : Nat
  replayed : Nat
  /-- The items up to the last one whose file the primary has made shorter, or unlinked, or
  created. -/
  cut : Nat → Fork → Nat
  /-- The blocks that were touched before a lookup began, and not truncated since. -/
  owed : Fin n → List Nat

/-- One step of the primary or on the replica. -/
inductive Op (n : Nat) where
  /-- The primary writes the next item. -/
  | write
  /-- The primary extends a file. -/
  | extend (rel : Nat) (fork : Fork) (nblocks : Nat)
  /-- The primary makes a file shorter, unlinks it or creates it, as of the given item. -/
  | replace (rel : Nat) (fork : Fork) (nblocks : Option Nat) (i : Nat)
  /-- The startup process replays the next item. -/
  | replay
  /-- `smgrnblocks` begins. -/
  | lookup (p : Fin n) (rel : Nat) (fork : Fork)
  /-- The next step of a process in the cache, where a sweep picks the given entry. -/
  | cache (p : Fin n) (pick : Nat)
  /-- A process leaves the cache. -/
  | finish (p : Fin n)
  /-- A process closes an `SMgrRelation`. -/
  | forget (p : Fin n) (rel : Nat)

namespace State

/-- Nothing is written or replayed. -/
def init (n : Nat) (wal : Wal) : State n :=
  { cache := Cache.init n, file := wal.file, written := 0, replayed := 0, cut := fun _ _ => 0
    owed := fun _ => [] }

def setFile (s : State n) (rel : Nat) (fork : Fork) (nblocks : Option Nat) : State n :=
  { s with file := setFork s.file rel fork nblocks }

/-- The primary writes a record after it has extended the file. -/
def fits (s : State n) : Item → Bool
  | .touch rel fork blocks _ => covers (s.file rel fork) blocks
  | .truncate _ _ _ | .create _ | .drop _ | .invalidate _ => true

variable (par : Params)

/-- `polar_rsc_update_if_exists`, with the comparison of the new length and the cached one. -/
def updateIfExists (c : Cache n) (rel : Nat) (fork : Fork) (nblocks : Nat)
    (cond : Nat → Nat → Bool) : Option (Cache n) :=
  if c.CanShare par.part rel then
    match c.mapping rel with
    | none => some c
    | some e =>
      if (c.entries e).locked then none
      else
        match (c.entries e).nblocks fork with
        | some cached => some (if cond nblocks cached then c.write e fork nblocks true else c)
        | none => some c
  else none

/-- What a process does not owe to a lookup any more. -/
def forgive (s : State n) (forks : Nat → Fork → Bool) : State n :=
  { s with owed := fun q =>
      if (s.cache.pc q).looking.any (fun f => forks f.1 f.2) then [] else s.owed q }

/-- The startup process replays an item. -/
def replayItem (initEmpty : Nat → Bool) (startup : Fin n) (s : State n) :
    Item → Option (State n)
  | .touch rel fork blocks true =>
    (updateIfExists par s.cache rel fork (blocks.foldr max 0 + 1)
      fun new cached => cached < new).map fun cache => { s with cache }
  | .touch _ _ _ false => some s
  | .truncate rel fork nblocks =>
    (updateIfExists par s.cache rel fork nblocks fun new cached => new < cached).map fun cache =>
      { s.forgive (fun r f => r = rel ∧ f = fork) with cache }
  | .create rel =>
    let t := s.forgive fun r _ => r = rel
    some (if initEmpty rel then { t with cache := t.cache.goto startup (.sweep (.init rel)) } else t)
  | .drop rel =>
    some { s.forgive (fun r _ => r = rel) with cache := s.cache.goto startup (.dropLock rel) }
  | .invalidate rel => some { s with cache := s.cache.goto startup (.dropLock rel) }

/-- The steps of the primary and of the replica, where `initEmpty` tells the relations for which an
empty entry is made: all those that are not in the global tablespace when
`polar_rsc_optimize_drop_buffers` is on. -/
def step (wal : Wal) (initEmpty : Nat → Bool) (startup : Fin n) (s : State n) :
    Op n → Option (State n)
  | .write =>
    wal.items[s.written]?.bind fun item =>
      if s.fits item then some { s with written := s.written + 1 } else none
  | .extend rel fork nblocks =>
    (s.file rel fork).bind fun old =>
      if old ≤ nblocks then some (s.setFile rel fork (some nblocks)) else none
  | .replace rel fork nblocks i =>
    if s.written ≤ i ∧ covers nblocks (wal.made i rel fork) then
      some { s.setFile rel fork nblocks with
        cut := setFork s.cut rel fork i }
    else none
  | .replay =>
    if s.cache.pc startup = .idle ∧ s.replayed < s.written then
      wal.items[s.replayed]?.bind fun item =>
        (s.replayItem par initEmpty startup item).map fun t =>
          { t with replayed := s.replayed + 1 }
    else none
  | .lookup p rel fork =>
    if s.cache.pc p = .idle then
      some { s with
        cache := s.cache.goto p (.readRef rel fork)
        owed := update s.owed p (wal.touched s.replayed rel fork) }
    else none
  | .cache p pick => (cacheStep par s.file s.cache p pick).map fun cache => { s with cache }
  | .finish p =>
    match s.cache.pc p with
    | .returned _ _ _ | .dropped _ => some { s with cache := s.cache.goto p .idle }
    | _ => none
  | .forget p rel => some { s with cache := s.cache.setRef p rel none }

end State

theorem covers_iff {len : Option Nat} {blocks : List Nat} :
    covers len blocks = true ↔ ∀ b ∈ blocks, ∃ l, len = some l ∧ b < l := by
  cases len <;> simp [covers]

namespace Wal

variable {wal : Wal} {i : Nat} {item : Item}

theorem made_succ (h : wal.items[i]? = some item) : wal.made (i + 1) = item.make (wal.made i) := by
  rw [made, take_add_one, h, foldl_append]
  rfl

theorem touched_succ (h : wal.items[i]? = some item) :
    wal.touched (i + 1) = item.mark (wal.touched i) := by
  rw [touched, take_add_one, h, foldl_append]
  rfl

theorem made_of_length_le (h : wal.items.length ≤ i) : wal.made (i + 1) = wal.made i := by
  rw [made, made, take_of_length_le h, take_of_length_le (h.trans (Nat.le_succ i))]

end Wal

namespace Blocks

variable {b : Blocks} {rel rel' : Nat} {fork : Fork}

@[simp] theorem clear_self : b.clear rel rel fork = [] := by
  simp [clear]

theorem clear_of_ne (h : rel' ≠ rel) : b.clear rel rel' fork = b rel' fork := by
  simp [clear, h]

end Blocks

/-- A block that was touched exists. -/
theorem mark_subset_make {touched made : Blocks} (h : ∀ rel fork, touched rel fork ⊆ made rel fork)
    (item : Item) (rel : Nat) (fork : Fork) :
    item.mark touched rel fork ⊆ item.make made rel fork := by
  cases item with
  | touch rel' fork' blocks update =>
    by_cases hf : (rel, fork) = (rel', fork')
    · obtain ⟨rfl, rfl⟩ := Prod.mk.inj hf
      simp only [Item.mark, Item.make, setFork_self]
      exact append_subset.mpr ⟨subset_append_left _ _,
        subset_append_of_subset_right _ (h rel fork)⟩
    · simp only [Item.mark, Item.make, setFork_of_ne _ _ hf]
      exact h rel fork
  | truncate rel' fork' nblocks =>
    by_cases hf : (rel, fork) = (rel', fork')
    · obtain ⟨rfl, rfl⟩ := Prod.mk.inj hf
      simp [Item.mark]
    · simp only [Item.mark, Item.make, setFork_of_ne _ _ hf]
      exact h rel fork
  | create rel' | drop rel' =>
    by_cases hr : rel = rel'
    · subst hr
      simp [Item.mark]
    · simp only [Item.mark, Item.make, Blocks.clear_of_ne hr]
      exact h rel fork
  | invalidate rel' => exact h rel fork

theorem Wal.touched_subset_made (wal : Wal) (i : Nat) (rel : Nat) (fork : Fork) :
    wal.touched i rel fork ⊆ wal.made i rel fork := by
  induction i generalizing rel fork with
  | zero => simp [touched]
  | succ i ih =>
    cases hitem : wal.items[i]? with
    | none =>
      have hlen := List.getElem?_eq_none_iff.mp hitem
      have htouched : wal.touched (i + 1) = wal.touched i := by
        rw [touched, touched, take_of_length_le hlen,
          take_of_length_le (hlen.trans (Nat.le_succ i))]
      rw [made_of_length_le hlen, htouched]
      exact ih rel fork
    | some item =>
      rw [made_succ hitem, touched_succ hitem]
      exact mark_subset_make ih item rel fork

namespace State

/-- What may be cached: a length beyond every block that exists. -/
def Good (wal : Wal) (s : State n) (rel : Nat) (fork : Fork) (m : Nat) : Prop :=
  ∀ b ∈ wal.made s.replayed rel fork, b < m

/-- What a lookup may return. -/
def Acc (s : State n) (p : Fin n) (m : Nat) : Prop := ∀ b ∈ s.owed p, b < m

end State

/-- The invariant of the replica. -/
structure Inv (par : Params) (wal : Wal) (startup : Fin n) (s : State n) : Prop where
  core : Core par.part (s.Good wal) s.Acc s.cache
  le : s.replayed ≤ s.written
  covered : ∀ rel fork i, s.cut rel fork ≤ i → i ≤ max s.written (s.cut rel fork) →
    covers (s.file rel fork) (wal.made i rel fork) = true
  init : ∀ p rel, (s.cache.pc p).task = some (.init rel) →
    p = startup ∧ ∀ fork, wal.made s.replayed rel fork = []
  noResize : ∀ p, (s.cache.pc p).resizing = none
  owed : ∀ p rel fork, (s.cache.pc p).looking = some (rel, fork) →
    s.owed p ⊆ wal.touched s.replayed rel fork

namespace Inv

variable {par : Params} {wal : Wal} {startup : Fin n} {s t : State n}

theorem init' (startup : Fin n) : Inv par wal startup (State.init n wal) where
  core := .init
  le := le_rfl
  covered rel fork i _ hi := by
    obtain rfl : i = 0 := by simpa [State.init] using hi
    exact wal.base_covered rel fork
  init p rel h := by simp [State.init, Cache.init, Cache.pc, Pc.task] at h
  noResize p := rfl
  owed p rel fork h := by simp [State.init, Cache.init, Cache.pc, Pc.looking] at h

/-- What is beyond every block that exists is beyond every block that is owed. -/
theorem acc_of_good (howed : ∀ p rel fork, (t.cache.pc p).looking = some (rel, fork) →
      t.owed p ⊆ wal.touched t.replayed rel fork) (p : Fin n) (rel : Nat) (fork : Fork)
    (hlook : (t.cache.pc p).looking = some (rel, fork)) (m : Nat) (hgood : t.Good wal rel fork m) :
    t.Acc p m :=
  fun b hb => hgood b (wal.touched_subset_made _ _ _ (howed p rel fork hlook hb))

section

variable (h : Inv par wal startup s)
include h

theorem write {item : Item} (hitem : wal.items[s.written]? = some item)
    (hfits : s.fits item = true) : Inv par wal startup { s with written := s.written + 1 } := by
  refine { h with le := h.le.trans (Nat.le_succ _), covered := fun rel fork i hcut hi => ?_ }
  dsimp only at hcut hi
  by_cases hnew : i ≤ max s.written (s.cut rel fork)
  · exact h.covered rel fork i hcut hnew
  · -- The new item is within the file as it is.
    obtain rfl : i = s.written + 1 := by omega
    have hold := h.covered rel fork s.written (by omega) (by omega)
    rw [Wal.made_succ hitem]
    rw [covers_iff] at hold ⊢
    cases item with
    | touch rel' fork' blocks update =>
      by_cases hf : (rel, fork) = (rel', fork')
      · obtain ⟨rfl, rfl⟩ := Prod.mk.inj hf
        intro b hb
        simp only [Item.make, setFork_self, mem_append] at hb
        rcases hb with hb | hb
        · exact covers_iff.mp hfits b hb
        · exact hold b hb
      · simpa only [Item.make, setFork_of_ne _ _ hf] using hold
    | truncate rel' fork' nblocks =>
      by_cases hf : (rel, fork) = (rel', fork')
      · obtain ⟨rfl, rfl⟩ := Prod.mk.inj hf
        intro b hb
        simp only [Item.make, setFork_self] at hb
        exact hold b (mem_of_mem_filter hb)
      · simpa only [Item.make, setFork_of_ne _ _ hf] using hold
    | create rel' | drop rel' =>
      by_cases hr : rel = rel'
      · subst hr
        simp [Item.make]
      · simpa only [Item.make, Blocks.clear_of_ne hr] using hold
    | invalidate rel' => exact hold

variable {fork : Fork}

theorem extend {rel old m : Nat} (hold : s.file rel fork = some old) (hle : old ≤ m) :
    Inv par wal startup (s.setFile rel fork (some m)) := by
  refine { h with core := { h.core with }, covered := fun rel' fork' i hcut hi => ?_ }
  have hcov := h.covered rel' fork' i hcut hi
  by_cases hf : (rel', fork') = (rel, fork)
  · obtain ⟨rfl, rfl⟩ := Prod.mk.inj hf
    rw [covers_iff] at hcov ⊢
    intro b hb
    obtain ⟨l, hl, hlt⟩ := hcov b hb
    obtain rfl : old = l := Option.some.inj (hold.symm.trans hl)
    exact ⟨m, by simp [State.setFile], hlt.trans_le hle⟩
  · simpa only [State.setFile, setFork_of_ne _ _ hf] using hcov

theorem replace {rel j : Nat} {m : Option Nat}
    (hj : s.written ≤ j) (hcovers : covers m (wal.made j rel fork) = true) :
    Inv par wal startup { s.setFile rel fork m with cut := setFork s.cut rel fork j } := by
  refine { h with core := { h.core with }, covered := fun rel' fork' i hcut hi => ?_ }
  by_cases hf : (rel', fork') = (rel, fork)
  · obtain ⟨rfl, rfl⟩ := Prod.mk.inj hf
    simp only [setFork_self, State.setFile] at hcut hi ⊢
    obtain rfl : i = j := by omega
    exact hcovers
  · simp only [setFork_of_ne _ _ hf, State.setFile] at hcut hi ⊢
    exact h.covered rel' fork' i hcut hi

variable {p : Fin n}

theorem build {c : Cache n}
    (hcore : Core par.part (s.Good wal) s.Acc c) (hne : ∀ q, q ≠ p → c.pc q = s.cache.pc q)
    (htask : ∀ rel, (c.pc p).task = some (.init rel) → (s.cache.pc p).task = some (.init rel))
    (hresizing : (c.pc p).resizing = none)
    (hlook : (c.pc p).looking = none ∨ (c.pc p).looking = (s.cache.pc p).looking) :
    Inv par wal startup { s with cache := c } := by
  refine { h with core := { hcore with }, init := ?_, noResize := ?_, owed := ?_ }
  · intro q rel hq
    by_cases hqp : q = p
    · subst hqp
      exact h.init q rel (htask rel hq)
    · exact h.init q rel (hne q hqp ▸ hq)
  · intro q
    by_cases hqp : q = p
    · exact hqp ▸ hresizing
    · exact hne q hqp ▸ h.noResize q
  · intro q rel fork hq
    by_cases hqp : q = p
    · subst hqp
      rcases hlook with hnone | hsame
      · rw [hnone] at hq
        cases hq
      · exact h.owed q rel fork (hsame ▸ hq)
    · exact h.owed q rel fork (hne q hqp ▸ hq)

theorem cache {pick : Nat} {c : Cache n} (hs : cacheStep par s.file s.cache p pick = some c)
    (hsample : ∀ rel fork e, s.cache.pc p = .sample rel fork e → s.cut rel fork ≤ s.replayed) :
    Inv par wal startup { s with cache := c } := by
  obtain ⟨hne, hfollows⟩ := follows_of_cacheStep hs
  have hstore : ∀ rel fork m e k, s.cache.pc p ≠ .store (.resize rel fork m) e k := by
    intro rel fork m e k hpc
    have hnone := h.noResize p
    rw [hpc] at hnone
    cases hnone
  have hcore : Core par.part (s.Good wal) s.Acc c := by
    refine h.core.cacheStep hs ?_ ?_ ?_
    · intro rel fork e m hpc hm b hb
      have hcov := h.covered rel fork s.replayed (hsample rel fork e hpc)
        (h.le.trans (le_max_left _ _))
      obtain ⟨l, hl, hlt⟩ := covers_iff.mp hcov b hb
      obtain rfl : m = l := Option.some.inj (hm.symm.trans hl)
      exact hlt
    · exact fun rel fork e m hpc => absurd hpc (hstore rel fork m e m)
    · intro t e hpc fork m hm b hb
      cases t with
      | lookup | resize => cases hm
      | init rel =>
        have hempty := (h.init p rel (by rw [hpc]; rfl)).2 fork
        rw [Task.rel, hempty] at hb
        cases hb
  refine h.build hcore hne hfollows.task ?_ hfollows.looking
  rcases hfollows.resizing with hsame | ⟨rel, fork, m, e, k, hpc, -⟩
  · exact hsame.trans (h.noResize p)
  · exact absurd hpc (hstore rel fork m e k)

theorem finish (hpc : ∀ rel e, ¬ (s.cache.pc p).Busy rel e) :
    Inv par wal startup { s with cache := s.cache.goto p .idle } := by
  refine h.build ?_ (fun q hq => Cache.pc_goto_of_ne _ _ _ hq) ?_ ?_ (.inl ?_)
  · exact h.core.goto (h.core.mutex.keep (by simp [Pc.held])) hpc trivial (.inl rfl)
  · simp [Pc.task]
  · simp [Pc.resizing, Pc.task]
  · simp [Pc.looking]

theorem forget {rel : Nat} :
    Inv par wal startup { s with cache := s.cache.setRef p rel none } := by
  have hpc : (s.cache.setRef p rel none).pc = s.cache.pc := Cache.pc_setRef _ _ _ _
  refine h.build (p := p) (h.core.setRef (by simp)) (fun q _ => by rw [hpc]) ?_ ?_ (.inr ?_)
  · rw [hpc]
    exact fun _ h => h
  · rw [hpc]
    exact h.noResize p
  · rw [hpc]

theorem lookup {rel : Nat} (hidle : s.cache.pc p = .idle) :
    Inv par wal startup { s with
      cache := s.cache.goto p (.readRef rel fork)
      owed := update s.owed p (wal.touched s.replayed rel fork) } := by
  set t : State n := { s with
    cache := s.cache.goto p (.readRef rel fork)
    owed := update s.owed p (wal.touched s.replayed rel fork) } with ht
  have hne {q : Fin n} (hq : q ≠ p) : t.cache.pc q = s.cache.pc q := Cache.pc_goto_of_ne _ _ _ hq
  have hpc : t.cache.pc p = .readRef rel fork := Cache.pc_goto_self _ _ _
  have howed : ∀ q r f, (t.cache.pc q).looking = some (r, f) →
      t.owed q ⊆ wal.touched t.replayed r f := by
    intro q r f hq
    by_cases hqp : q = p
    · subst hqp
      rw [hpc] at hq
      cases hq
      simp [ht]
    · rw [hne hqp] at hq
      simpa [ht, hqp] using h.owed q r f hq
  have henv : Core par.part (s.Good wal) t.Acc s.cache := by
    refine h.core.env (fun _ _ _ _ _ _ _ hm => hm) (fun _ _ _ _ _ _ hm => .inr hm) ?_ ?_
    · intro q hq m hm
      have hqp : q ≠ p := fun heq => hq (heq ▸ hidle)
      simpa [ht, State.Acc, hqp] using hm
    · intro q r f hq m hm
      have hqp : q ≠ p := by
        rintro rfl
        rw [hidle] at hq
        cases hq
      exact acc_of_good howed q r f (by rwa [hne hqp]) m hm
  refine ⟨{ henv.begin hidle fun m hm => ?_ with }, h.le, h.covered, ?_, ?_, howed⟩
  · exact acc_of_good howed p rel fork (by rw [hpc]; rfl) m hm
  · intro q r hq
    by_cases hqp : q = p
    · subst hqp
      rw [hpc] at hq
      cases hq
    · exact h.init q r (hne hqp ▸ hq)
  · intro q
    by_cases hqp : q = p
    · subst hqp
      rw [hpc]
      rfl
    · rw [hne hqp]
      exact h.noResize q

end

end Inv

end Polar.SizeCache.Replica
