import Polar.Base.Run
import Mathlib.Logic.Function.Basic
import Mathlib.Data.Fintype.Basic

/-!
# The relation size cache

The cache keeps the lengths of the forks of some relations in shared memory. A process finds the
entry of a relation through a pointer that it keeps with a generation number, or through a hash
table whose partitions have a lock each. When the entry has no length, the process reads it from the
file.

A section under the lock of one entry is a step, except that an entry that gets a new relation is
locked over two steps: the generation is changed before the lengths, and the pointer path reads
without the lock. The lookup in the hash table under the shared partition lock is one step too,
since neither the mapping nor the generation changes while the lock is held. The use counts only
decide which entry a sweep picks, and it may pick any.
-/

namespace Polar.SizeCache

open Function

/-- `ForkNumber`. -/
inductive Fork where
  | main
  | fsm
  | vm
  | init
  deriving DecidableEq, Repr

/-- Set what belongs to one fork of one relation. -/
def setFork {α : Type*} (f : Nat → Fork → α) (rel : Nat) (fork : Fork) (a : α) : Nat → Fork → α :=
  update f rel (update (f rel) fork a)

@[simp] theorem setFork_self {α : Type*} (f : Nat → Fork → α) (rel : Nat) (fork : Fork) (a : α) :
    setFork f rel fork a rel fork = a := by
  simp [setFork]

theorem setFork_of_ne {α : Type*} (f : Nat → Fork → α) {rel rel' : Nat} {fork fork' : Fork} (a : α)
    (h : (rel', fork') ≠ (rel, fork)) : setFork f rel fork a rel' fork' = f rel' fork' := by
  by_cases hrel : rel' = rel
  · subst hrel
    have hfork : fork' ≠ fork := fun hf => h (by rw [hf])
    simp [setFork, hfork]
  · simp [setFork, hrel]

theorem setFork_eq_self {α : Type*} {f : Nat → Fork → α} {rel : Nat} {fork : Fork} {a : α}
    (h : f rel fork = a) : setFork f rel fork a = f := by
  simp [setFork, ← h]

/-- `polar_rsc_shared_relation_t`. -/
structure Entry where
  /-- `RSC_VALID`. -/
  valid : Bool
  /-- `RSC_LOCKED`, while the entry gets a new relation. -/
  locked : Bool
  /-- `RSC_DIRTY`. -/
  dirty : Fork → Bool
  generation : Nat
  /-- `rlocator`. -/
  rel : Nat
  /-- Invalid when it is `none`. -/
  nblocks : Fork → Option Nat

/-- `rsc_ref` and `rsc_generation` of an `SMgrRelation`. -/
structure Ref where
  entry : Nat
  generation : Nat
  deriving DecidableEq

/-- Why a process needs an entry. -/
inductive Task where
  /-- `polar_rsc_update_entry` with an invalid length. -/
  | lookup (rel : Nat) (fork : Fork)
  /-- `polar_rsc_update_entry` after the file was changed. -/
  | resize (rel : Nat) (fork : Fork) (nblocks : Nat)
  /-- `polar_rsc_init_empty_entry`. -/
  | init (rel : Nat)
  deriving DecidableEq

namespace Task

/-- The relation of a task. -/
def rel : Task → Nat
  | lookup rel _ | resize rel _ _ | init rel => rel

def looking : Task → Option (Nat × Fork)
  | lookup rel fork => some (rel, fork)
  | resize _ _ _ | init _ => none

/-- The lengths with which `rsc_allocate_and_put` fills an entry. -/
def initial : Task → Fork → Option Nat
  | lookup _ _, _ | resize _ _ _, _ => none
  | init _, .init => none
  | init _, _ => some 0

end Task

/-- Where a process is. -/
inductive Pc where
  | idle
  /-- In `polar_rsc_search_by_ref`. -/
  | readRef (rel : Nat) (fork : Fork)
  /-- It has read the length, and goes to check the generation. -/
  | checkRef (rel : Nat) (fork : Fork) (ref : Ref) (result : Option Nat)
  /-- In `polar_rsc_search_by_mapping`. -/
  | searchMapping (rel : Nat) (fork : Fork)
  /-- `smgrnblocks` returns. -/
  | returned (rel : Nat) (fork : Fork) (result : Nat)
  /-- At `rsc_nblocks_update` of `polar_rsc_update_entry`. -/
  | find (task : Task)
  /-- Before `smgrnblocks_real`, with the shared lock. -/
  | sample (rel : Nat) (fork : Fork) (entry : Nat)
  /-- Before the entry is locked, with the shared lock. -/
  | store (task : Task) (entry nblocks : Nat)
  /-- The update of the entry after a change of the file is done. -/
  | resized (rel : Nat) (fork : Fork)
  /-- In `rsc_lru_pool_sweep`. -/
  | sweep (task : Task)
  /-- In `rsc_alloc_entry`, before the exclusive lock. -/
  | evictLock (task : Task) (entry rel : Nat)
  /-- With the exclusive lock, before the entry is invalidated. -/
  | evictClear (task : Task) (entry rel : Nat)
  /-- Before the mapping is removed. -/
  | evictRemove (task : Task) (entry rel : Nat)
  /-- In `rsc_allocate_and_put`, before the exclusive lock. -/
  | putLock (task : Task) (entry : Nat)
  /-- Before the entry is locked. -/
  | putEnter (task : Task) (entry : Nat)
  /-- The mapping is there, and the entry is locked. -/
  | putFill (task : Task) (entry : Nat)
  /-- In `polar_rsc_drop_entry`, before the exclusive lock. -/
  | dropLock (rel : Nat)
  | dropClear (rel entry : Nat)
  | dropRemove (rel entry : Nat)
  /-- `polar_rsc_drop_entry` is done. -/
  | dropped (rel : Nat)
  deriving DecidableEq

namespace Pc

/-- The fork whose length the process looks up. -/
def looking : Pc → Option (Nat × Fork)
  | readRef rel fork | checkRef rel fork _ _ | searchMapping rel fork | sample rel fork _ =>
    some (rel, fork)
  | find t | store t _ _ | sweep t | evictLock t _ _ | evictClear t _ _ | evictRemove t _ _
  | putLock t _ | putEnter t _ | putFill t _ => t.looking
  | idle | returned _ _ _ | resized _ _ | dropLock _ | dropClear _ _ | dropRemove _ _
  | dropped _ => none

/-- The relation whose partition lock the process holds. -/
def held : Pc → Option Nat
  | sample rel _ _ | evictClear _ _ rel | evictRemove _ _ rel | dropClear rel _
  | dropRemove rel _ => some rel
  | store t _ _ | putEnter t _ | putFill t _ => some t.rel
  | _ => none

/-- It holds the lock exclusively. -/
def exclusive : Pc → Bool
  | evictClear _ _ _ | evictRemove _ _ _ | dropClear _ _ | dropRemove _ _ | putEnter _ _
  | putFill _ _ => true
  | _ => false

end Pc

/-- A process, with its pointers into the cache. -/
structure Proc where
  pc : Pc
  refs : Nat → Option Ref

/-- The entries, the hash table and the processes. -/
structure Cache (n : Nat) where
  entries : Nat → Entry
  /-- `rsc_mappings`. -/
  mapping : Nat → Option Nat
  procs : Fin n → Proc

/-- `NUM_POLAR_RSC_LOCK_PARTITIONS` and the hash function, and `polar_rsc_shared_relations`. -/
structure Params where
  part : Nat → Nat
  size : Nat

variable {n : Nat}

namespace Cache

/-- After `polar_rsc_shmem_init`. -/
def init (n : Nat) : Cache n where
  entries _ :=
    { valid := false, locked := false, dirty := fun _ => false, generation := 0, rel := 0
      nblocks := fun _ => none }
  mapping _ := none
  procs _ := { pc := .idle, refs := fun _ => none }

def pc (c : Cache n) (p : Fin n) : Pc := (c.procs p).pc

variable (c : Cache n)

def goto (p : Fin n) (pc : Pc) : Cache n :=
  { c with procs := update c.procs p { c.procs p with pc } }

def setRef (p : Fin n) (rel : Nat) (ref : Option Ref) : Cache n :=
  let refs := update (c.procs p).refs rel ref
  { c with procs := update c.procs p { c.procs p with refs } }

def setEntry (e : Nat) (entry : Entry) : Cache n :=
  { c with entries := update c.entries e entry }

def setMapping (rel : Nat) (e : Option Nat) : Cache n :=
  { c with mapping := update c.mapping rel e }

/-- The length of one fork is stored. -/
def write (e : Nat) (fork : Fork) (nblocks : Nat) (dirty : Bool) : Cache n :=
  c.setEntry e { c.entries e with
    nblocks := update (c.entries e).nblocks fork (some nblocks)
    dirty := update (c.entries e).dirty fork dirty }

/-- The partition lock of the relation can be acquired in shared mode. -/
def CanShare (part : Nat → Nat) (c : Cache n) (rel : Nat) : Prop :=
  ∀ q, (c.pc q).exclusive = true → ∀ r ∈ (c.pc q).held, part r ≠ part rel

/-- It can be acquired in exclusive mode. -/
def CanLock (part : Nat → Nat) (c : Cache n) (rel : Nat) : Prop :=
  ∀ q, ∀ r ∈ (c.pc q).held, part r ≠ part rel

instance (part : Nat → Nat) (c : Cache n) (rel : Nat) : Decidable (c.CanShare part rel) :=
  inferInstanceAs (Decidable (∀ q, (c.pc q).exclusive = true → ∀ r ∈ (c.pc q).held,
    part r ≠ part rel))

instance (part : Nat → Nat) (c : Cache n) (rel : Nat) : Decidable (c.CanLock part rel) :=
  inferInstanceAs (Decidable (∀ q, ∀ r ∈ (c.pc q).held, part r ≠ part rel))

end Cache

/-- Where a process goes when there is an entry for its task. -/
def Task.next : Task → Pc
  | .init _ => .idle
  | t => .find t

variable (par : Params)

/-- `polar_rsc_search_by_ref` and `polar_rsc_search_by_mapping`. -/
def searchStep (c : Cache n) (p : Fin n) : Option (Cache n) :=
  match c.pc p with
  | .readRef rel fork =>
    match (c.procs p).refs rel with
    | none => some (c.goto p (.searchMapping rel fork))
    | some ref => some (c.goto p (.checkRef rel fork ref ((c.entries ref.entry).nblocks fork)))
  | .checkRef rel fork ref result =>
    if (c.entries ref.entry).generation = ref.generation then
      match result with
      | some nblocks => some (c.goto p (.returned rel fork nblocks))
      | none => some (c.goto p (.searchMapping rel fork))
    else some ((c.setRef p rel none).goto p (.searchMapping rel fork))
  | .searchMapping rel fork =>
    if c.CanShare par.part rel then
      match c.mapping rel with
      | none => some (c.goto p (.find (.lookup rel fork)))
      | some e =>
        let found := c.setRef p rel (some ⟨e, (c.entries e).generation⟩)
        match (c.entries e).nblocks fork with
        | some nblocks => some (found.goto p (.returned rel fork nblocks))
        | none => some (found.goto p (.find (.lookup rel fork)))
    else none
  | _ => none

/-- `polar_rsc_update_entry`, with the length of the files. -/
def updateStep (file : Nat → Fork → Option Nat) (c : Cache n) (p : Fin n) :
    Option (Cache n) :=
  match c.pc p with
  | .find t =>
    if c.CanShare par.part t.rel then
      match c.mapping t.rel, t with
      | none, _ => some (c.goto p (.sweep t))
      | some e, .lookup rel fork => some (c.goto p (.sample rel fork e))
      | some e, .resize rel fork nblocks =>
        some (c.goto p (.store (.resize rel fork nblocks) e nblocks))
      | some _, .init _ => none
    else none
  | .sample rel fork e =>
    match file rel fork with
    -- `smgrnblocks_real` raises an error.
    | none => some (c.goto p .idle)
    | some nblocks => some (c.goto p (.store (.lookup rel fork) e nblocks))
  | .store (.resize rel fork _) e nblocks =>
    if (c.entries e).locked then none
    else some ((c.write e fork nblocks true).goto p (.resized rel fork))
  | .store (.lookup rel fork) e nblocks =>
    if (c.entries e).locked then none
    else if (c.entries e).dirty fork then some (c.goto p (.returned rel fork nblocks))
    else some ((c.write e fork nblocks false).goto p (.returned rel fork nblocks))
  | _ => none

/-- `rsc_alloc_entry`, where the sweep picks the given entry. -/
def evictStep (c : Cache n) (p : Fin n) (pick : Nat) : Option (Cache n) :=
  match c.pc p with
  | .sweep t =>
    if pick < par.size ∧ (c.entries pick).locked = false then
      if (c.entries pick).valid then some (c.goto p (.evictLock t pick (c.entries pick).rel))
      else some (c.goto p (.putLock t pick))
    else none
  | .evictLock t e rel =>
    if c.CanLock par.part rel then
      if c.mapping rel = some e then some (c.goto p (.evictClear t e rel))
      else some (c.goto p (.sweep t))
    else none
  | .evictClear t e rel =>
    if (c.entries e).locked then none
    else some ((c.setEntry e { c.entries e with
      valid := false, generation := (c.entries e).generation + 1 }).goto p (.evictRemove t e rel))
  | .evictRemove t e rel => some ((c.setMapping rel none).goto p (.putLock t e))
  | _ => none

/-- `rsc_allocate_and_put`. -/
def putStep (c : Cache n) (p : Fin n) : Option (Cache n) :=
  match c.pc p with
  | .putLock t e => if c.CanLock par.part t.rel then some (c.goto p (.putEnter t e)) else none
  | .putEnter t e =>
    if (c.entries e).locked then none
    else if (c.entries e).valid then some (c.goto p (.sweep t))
    else
      match c.mapping t.rel with
      | some _ => some ((c.setEntry e { c.entries e with dirty := fun _ => false }).goto p t.next)
      | none =>
        some (((c.setMapping t.rel (some e)).setEntry e { c.entries e with
          locked := true, rel := t.rel, generation := (c.entries e).generation + 1 }).goto p
            (.putFill t e))
  | .putFill t e =>
    some ((c.setEntry e { c.entries e with
      valid := true, locked := false, dirty := fun _ => false, nblocks := t.initial }).goto p
        t.next)
  | _ => none

/-- `polar_rsc_drop_entry`. -/
def dropStep (c : Cache n) (p : Fin n) : Option (Cache n) :=
  match c.pc p with
  | .dropLock rel =>
    if c.CanLock par.part rel then
      match c.mapping rel with
      | none => some (c.goto p (.dropped rel))
      | some e => some (c.goto p (.dropClear rel e))
    else none
  | .dropClear rel e =>
    if (c.entries e).locked then none
    else some ((c.setEntry e { c.entries e with
      valid := false, nblocks := fun _ => none }).goto p (.dropRemove rel e))
  | .dropRemove rel _ => some ((c.setMapping rel none).goto p (.dropped rel))
  | _ => none

/-- The next step of a process in the cache. -/
def cacheStep (file : Nat → Fork → Option Nat) (c : Cache n) (p : Fin n)
    (pick : Nat) : Option (Cache n) :=
  (searchStep par c p).or ((updateStep par file c p).or
    ((evictStep par c p pick).or ((putStep par c p).or (dropStep par c p))))

end Polar.SizeCache
