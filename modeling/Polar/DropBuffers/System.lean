import Polar.Base.Run
import Polar.Base.Search
import Mathlib.Data.List.Sort
import Mathlib.Logic.Function.Basic

/-!
# Dropping the buffers of relations

`DropRelationBuffers` and `DropRelationsAllBuffers` look up every block of the relations if they
know the lengths of the forks and the lengths are small, and scan the whole pool otherwise.
Meanwhile other backends evict buffers, and load pages of other relations.

A step of the dropping backend is one access to the mapping table, or one section under a header
lock.
-/

namespace Polar.DropBuffers

/-- `ForkNumber`. -/
inductive ForkNumber where
  | main
  | fsm
  | visibilitymap
  | init
  deriving DecidableEq, Repr

/-- The forks up to `MAX_FORKNUM`. -/
def allForks : List ForkNumber := [.main, .fsm, .visibilitymap, .init]

/-- `BufferTag`; the locators are ordered by `rlocator_comparator`. -/
structure Tag (ρ : Type*) where
  rel : ρ
  fork : ForkNumber
  block : Nat
  deriving DecidableEq

/-- `InvalidBlockNumber`. -/
def invalidBlock : Nat := 2 ^ 32 - 1

/-- What the dropping backend knows of the node and of the forks. -/
structure Node (ρ : Type*) where
  nBuffers : Nat
  isReplica : Bool
  /-- `polar_force_unlogged_to_logged_table`. -/
  forceUnlogged : Bool
  /-- The length of a fork from the size cache, if it is known. -/
  nblocks : ρ → ForkNumber → Option Nat
  /-- `smgrexists`. -/
  smgrexists : ρ → ForkNumber → Bool

/-- What is to be dropped. -/
inductive Request (ρ : Type*) where
  /-- `DropRelationBuffers`, with the forks and their first blocks to delete. -/
  | relation (rel : ρ) (forks : List (ForkNumber × Nat))
  /-- `DropRelationsAllBuffers`. -/
  | all (rels : List ρ)

/-- The arguments of `FindAndDropRelationBuffers`. -/
structure Range (ρ : Type*) where
  rel : ρ
  fork : ForkNumber
  nForkBlock : Nat
  firstDelBlock : Nat

variable {ρ : Type*} [LinearOrder ρ]

namespace Node

variable (node : Node ρ)

/-- The forks that a replica never reads. -/
def unread (fork : ForkNumber) : Bool :=
  node.isReplica && (fork == .fsm || (fork == .init && node.forceUnlogged))

/-- `BUF_DROP_FULL_SCAN_THRESHOLD`. -/
def threshold : Nat := node.nBuffers / 32

/-- `nBlocksToInvalidate` of `DropRelationBuffers`. Lengths are 32 bits wide, and the sum is 64. -/
def blocksToInvalidate (rel : ρ) : List (ForkNumber × Nat) → Nat → Nat
  | [], total => total
  | (fork, first) :: forks, total =>
    if node.unread fork then blocksToInvalidate rel forks total
    else
      match node.nblocks rel fork with
      | none => invalidBlock
      | some n => blocksToInvalidate rel forks ((total + (n + 2 ^ 32 - first) % 2 ^ 32) % 2 ^ 64)

/-- The lookups of `DropRelationBuffers`, or `none` for a scan. -/
def planRelation (rel : ρ) (forks : List (ForkNumber × Nat)) : Option (List (Range ρ)) :=
  let total := node.blocksToInvalidate rel forks 0
  if total % 2 ^ 32 ≠ invalidBlock ∧ total < node.threshold then
    some (forks.filterMap fun (fork, first) =>
      if node.unread fork then none
      else (node.nblocks rel fork).map fun n => ⟨rel, fork, n, first⟩)
  else none

/-- The sum of `DropRelationsAllBuffers`; `none` if `cached` is false in the end. -/
def totalBlocks : List (ρ × ForkNumber) → Nat → Option Nat
  | [], total => some total
  | (rel, fork) :: pairs, total =>
    match node.nblocks rel fork with
    | some n => totalBlocks pairs ((total + n) % 2 ^ 64)
    | none =>
      if node.isReplica then if node.unread fork then totalBlocks pairs total else none
      else if !node.smgrexists rel fork then totalBlocks pairs total
      else none

/-- The lookups of `DropRelationsAllBuffers`, or `none` for a scan. -/
def planAll (rels : List ρ) : Option (List (Range ρ)) :=
  let pairs := rels.flatMap fun rel => allForks.map fun fork => (rel, fork)
  match node.totalBlocks pairs 0 with
  | some total =>
    if total < node.threshold then
      some (pairs.filterMap fun (rel, fork) =>
        (node.nblocks rel fork).map fun n => ⟨rel, fork, n, 0⟩)
    else none
  | none => none

/-- The ranges to look up, or `none` to scan the pool. -/
def plan : Request ρ → Option (List (Range ρ))
  | .relation rel forks => node.planRelation rel forks
  | .all rels => node.planAll rels

end Node

namespace Request

/-- `RELS_BSEARCH_THRESHOLD`. -/
def bsearchThreshold : Nat := 20

/-- The locator of the request that the tag of a buffer matches, as the scan finds it. -/
def findLocator (rels : List ρ) (rel : ρ) : Option ρ :=
  if rels.length > bsearchThreshold then
    if Base.search (fun a b => decide (a < b)) (rels.mergeSort fun a b => decide (a ≤ b)) rel then
      some rel
    else none
  else rels.find? (· = rel)

/-- The check of the scan before the header lock. -/
def precheck : Request ρ → ρ → Option ρ
  | .relation rel _, other => if other = rel then some rel else none
  | .all rels, other => findLocator rels other

/-- The check of the scan under the header lock, for the locator that was found. -/
def recheck : Request ρ → ρ → Tag ρ → Bool
  | .relation rel forks, _, tag =>
    forks.any fun (fork, first) => tag.rel == rel && tag.fork == fork && decide (first ≤ tag.block)
  | .all _, found, tag => tag.rel == found

/-- The relations of a request. Nobody loads pages of them. -/
def rels : Request ρ → List ρ
  | .relation rel _ => [rel]
  | .all rels => rels

/-- The buffers that are to be dropped. -/
def Drops : Request ρ → Tag ρ → Prop
  | .relation rel forks, tag =>
    tag.rel = rel ∧ ∃ first, (tag.fork, first) ∈ forks ∧ first ≤ tag.block
  | .all rels, tag => tag.rel ∈ rels

end Request

/-- Where the dropping backend is. -/
inductive Pc (ρ : Type*) where
  | start
  /-- Before the lookup of the block of the first range. -/
  | look (ranges : List (Range ρ)) (block : Nat)
  /-- Before the header lock of the buffer found. -/
  | found (ranges : List (Range ρ)) (block id : Nat)
  /-- Before the check of a buffer without lock. -/
  | scan (id : Nat)
  | scanLock (id : Nat) (found : ρ)
  | done

/-- The buffer pool, and how far the dropping backend is. -/
structure State (ρ : Type*) where
  slot : Nat → Option (Tag ρ)
  pc : Pc ρ
  /-- The pool as it would be if the backend dropped nothing. -/
  shadow : Nat → Option (Tag ρ)

/-- A step of the dropping backend, or of another one. -/
inductive Op (ρ : Type*) where
  /-- The next step of the dropping backend. -/
  | drop
  /-- Another backend evicts a buffer, and may load a page into it. -/
  | evict (id : Nat) (tag : Option (Tag ρ))

namespace State

/-- `BufTableLookup`. -/
def lookup (nBuffers : Nat) (s : State ρ) (tag : Tag ρ) : Option Nat :=
  (List.range nBuffers).find? fun id => s.slot id = some tag

/-- `InvalidateBuffer`. -/
def invalidate (s : State ρ) (id : Nat) : State ρ := { s with slot := Function.update s.slot id none }

/-- The next range. -/
def nextRange (ranges : List (Range ρ)) : Pc ρ :=
  match ranges with
  | [] => .done
  | r :: rs => .look (r :: rs) r.firstDelBlock

/-- The check under the header lock in `FindAndDropRelationBuffers`. -/
def matchesRange (r : Range ρ) : Option (Tag ρ) → Bool
  | some tag => tag.rel == r.rel && tag.fork == r.fork && decide (r.firstDelBlock ≤ tag.block)
  | none => false

/-- The next step of the dropping backend. -/
def dropStep (node : Node ρ) (request : Request ρ) (s : State ρ) : Option (State ρ) :=
  match s.pc with
  | .start =>
    match node.plan request with
    | some ranges => some { s with pc := nextRange ranges }
    | none => some { s with pc := .scan 0 }
  | .look [] _ => some { s with pc := .done }
  | .look (r :: rs) block =>
    if block < r.nForkBlock then
      match s.lookup node.nBuffers ⟨r.rel, r.fork, block⟩ with
      | none => some { s with pc := .look (r :: rs) (block + 1) }
      | some id => some { s with pc := .found (r :: rs) block id }
    else some { s with pc := nextRange rs }
  | .found [] _ _ => some { s with pc := .done }
  | .found (r :: rs) block id =>
    let t := if matchesRange r (s.slot id) then s.invalidate id else s
    some { t with pc := .look (r :: rs) (block + 1) }
  | .scan id =>
    if id < node.nBuffers then
      match (s.slot id).bind fun tag => request.precheck tag.rel with
      | none => some { s with pc := .scan (id + 1) }
      | some found => some { s with pc := .scanLock id found }
    else some { s with pc := .done }
  | .scanLock id found =>
    let t := if (s.slot id).any (request.recheck found) then s.invalidate id else s
    some { t with pc := .scan (id + 1) }
  | .done => none

/-- A page that is loaded is not one of the relations, and is not in the pool yet. -/
def evictStep (node : Node ρ) (request : Request ρ) (s : State ρ) (id : Nat)
    (tag : Option (Tag ρ)) : Option (State ρ) :=
  if id < node.nBuffers ∧
      tag.all fun t => !request.rels.contains t.rel && (s.lookup node.nBuffers t).isNone then
    some { s with
      slot := Function.update s.slot id tag
      shadow := Function.update s.shadow id tag }
  else none

end State

variable (node : Node ρ)

def step (request : Request ρ) (s : State ρ) : Op ρ → Option (State ρ)
  | .drop => s.dropStep node request
  | .evict id tag => s.evictStep node request id tag

/-- The buffers of a replica that may stay. -/
def Exempt (tag : Tag ρ) : Prop := node.unread tag.fork = true

/-- The pool has the buffers that a full scan leaves, up to those that may stay. -/
def Left (request : Request ρ) (s : State ρ) : Prop :=
  ∀ id, match s.shadow id with
    | none => s.slot id = none
    | some tag =>
      (¬request.Drops tag → s.slot id = some tag) ∧
      (request.Drops tag → s.slot id = none ∨ Exempt node tag ∧ s.slot id = some tag)

/-- The pool at the call: no page twice, and a known length is above every buffer of the fork. -/
structure Pool (node : Node ρ) (slot : Nat → Option (Tag ρ)) : Prop where
  bound : ∀ id tag, slot id = some tag → id < node.nBuffers
  unique : ∀ i j tag, slot i = some tag → slot j = some tag → i = j
  length : ∀ id tag n, slot id = some tag → node.nblocks tag.rel tag.fork = some n → tag.block < n

/-- Where `DropRelationsAllBuffers` asks whether a fork exists, a fork with buffers exists. -/
def ForksExist (request : Request ρ) (slot : Nat → Option (Tag ρ)) : Prop :=
  match request with
  | .relation _ _ => True
  | .all rels => node.isReplica = false → ∀ id tag, slot id = some tag → tag.rel ∈ rels →
      node.nblocks tag.rel tag.fork = none → node.smgrexists tag.rel tag.fork = true

/-- The backend is about to start. -/
def State.init (slot : Nat → Option (Tag ρ)) : State ρ := ⟨slot, .start, slot⟩

/-- What is left to do, in steps. -/
def Pc.work (request : Request ρ) : Pc ρ → Nat
  | .start => 1 +
      match node.plan request with
      | some ranges => (ranges.map fun r => 2 * (r.nForkBlock - r.firstDelBlock) + 2).sum
      | none => 2 * node.nBuffers + 1
  | .look [] _ => 1
  | .look (r :: rs) block => 2 * (r.nForkBlock - block) + 1 +
      (rs.map fun r => 2 * (r.nForkBlock - r.firstDelBlock) + 2).sum
  | .found [] _ _ => 1
  | .found (r :: rs) block _ => 2 * (r.nForkBlock - (block + 1)) + 2 +
      (rs.map fun r => 2 * (r.nForkBlock - r.firstDelBlock) + 2).sum
  | .scan id => 2 * (node.nBuffers - id) + 1
  | .scanLock id _ => 2 * (node.nBuffers - (id + 1)) + 2
  | .done => 0

end Polar.DropBuffers
