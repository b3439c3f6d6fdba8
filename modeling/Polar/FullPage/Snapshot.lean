import Polar.Base.Run
import Mathlib.Data.List.Basic
import Mathlib.Data.List.Pairwise
import Mathlib.Logic.Function.Basic
import Mathlib.Order.Nat

/-!
# Full-page snapshots

The primary may write a version of a page that is newer than what a replica has replayed, once it
has logged a record for the version before and has saved that version in the full-page file. The
steps are those of `FlushBuffer`, `polar_flush_copy_buffer` and `polar_log_fullpage_snapshot_image`
on one page, and of a replica that fills its full-page logindex and reads the page.
-/

namespace Polar.FullPage

/-- A version of the page. -/
structure Version (α : Type*) where
  lsn : Nat
  content : α
  deriving DecidableEq

/-- A record that changes the page, which ends at the LSN. -/
structure Change (κ : Type*) where
  lsn : Nat
  change : κ

/-- An FPSI record. -/
structure Fpsi (α : Type*) where
  /-- Where the record starts. -/
  lsn : Nat
  /-- The number of the slot in the full-page file. -/
  fullpageNo : Nat
  /-- What was read as the old version. -/
  image : Version α
  deriving DecidableEq

/-- The process that flushes the page. -/
inductive Flush (α : Type*) where
  | idle
  /-- The record is logged, and `polar_write_fullpage` comes next. -/
  | logged (f : Fpsi α)
  /-- The image is in the file, and the page is written next. -/
  | imaged

/-- The process of the replica that reads the page. -/
inductive Reader (α : Type*) where
  | idle
  /-- It has read the page from storage. -/
  | read (page : Version α)
  /-- It has found a record, from the replay position on. -/
  | found (f : Fpsi α) (replayed : Nat)
  /-- It has read the slot of the record. -/
  | restored (page : Option (Version α)) (replayed : Nat)
  deriving DecidableEq

/-- What the page is made of, and where its history begins. -/
structure Page (α κ : Type*) where
  redo : κ → α → α
  /-- The version on storage at the beginning. -/
  base : Version α
  insert : Nat
  replayed : Nat
  base_le : base.lsn ≤ replayed
  replayed_le : replayed ≤ insert

variable {α κ : Type*}

/-- The page after the records of a history. -/
def applyAll (redo : κ → α → α) (a : α) (history : List (Change κ)) : α :=
  history.foldl (fun a c => redo c.change a) a

variable (page : Page α κ)

/-- The content of the page at a position of the WAL. -/
def Page.contentAt (history : List (Change κ)) (lsn : Nat) : α :=
  applyAll page.redo page.base.content (history.filter fun c => c.lsn ≤ lsn)

/-- The records of the page from a version to a position are replayed. -/
def Page.replayTo (history : List (Change κ)) (v : Version α) (lsn : Nat) : α :=
  applyAll page.redo v.content (history.filter fun c => v.lsn < c.lsn ∧ c.lsn ≤ lsn)

/-- The page on the primary, in the files and on the replica. -/
structure State (α κ : Type*) where
  /-- The records that change the page. -/
  history : List (Change κ)
  /-- Where the next record starts. -/
  insert : Nat
  buffer : Version α
  copyBuffer : Option (Version α)
  storage : Version α
  maxFullpageNo : Nat
  records : List (Fpsi α)
  /-- The slots of the full-page files. -/
  slots : Nat → Option (Version α)
  flush : Flush α
  replayed : Nat
  /-- How many of the records the worker of the replica has taken from its queue. -/
  received : Nat
  /-- Which LSNs are in the full-page logindex of the replica. -/
  indexed : Nat → Bool
  reader : Reader α

/-- One step on the page. -/
inductive Op (α κ : Type*) where
  /-- A record changes the page in the buffer. -/
  | change (len : Nat) (c : κ)
  /-- Another record is logged. -/
  | log (len : Nat)
  /-- The buffer is copied. -/
  | copy
  /-- An ordinary flush, with `oldest_apply_lsn`. -/
  | flush (oldestApplyLsn : Nat)
  | flushCopy (oldestApplyLsn : Nat)
  /-- The record of `polar_log_fullpage_snapshot_image`. -/
  | logFullpage (oldestApplyLsn len : Nat)
  | writeFullpage
  /-- The page is written after the snapshot. -/
  | writePage
  /-- An FPSI record of another page. -/
  | logOther (len : Nat)
  | writeOther (fullpageNo : Nat) (v : Version α)
  /-- The replica replays up to a position. -/
  | replay (lsn : Nat)
  /-- The replica reads the page from storage. -/
  | read
  /-- The worker of the replica puts the next record into the full-page logindex. -/
  | index
  /-- The worker gets the next record as a `POLAR_RINGBUF_PKT_WAL_STORAGE_BEGIN` packet, and goes on
  without it. -/
  | drop
  /-- The replica loads what the primary has saved of the logindex, up to a position. -/
  | loadIndex (lsn : Nat)
  /-- The replica looks for a record of the page in the full-page logindex. -/
  | search
  /-- It reads the slot of the record. -/
  | load
  /-- The replica is done with the page. -/
  | leave

namespace State

/-- The page is unchanged. -/
def init : State α κ where
  history := []
  insert := page.insert
  buffer := page.base
  copyBuffer := none
  storage := page.base
  maxFullpageNo := 0
  records := []
  slots := fun _ => none
  flush := .idle
  replayed := page.replayed
  received := 0
  indexed := fun _ => false
  reader := .idle

variable (s : State α κ)

/-- The old version: the copy buffer when it could be flushed, or what is on storage. -/
def oldVersion (oldestApplyLsn : Nat) : Version α :=
  match s.copyBuffer with
  | some c => if c.lsn ≤ oldestApplyLsn then c else s.storage
  | none => s.storage

/-- The first record of the page from a position on, among those that are in the logindex. -/
def firstFrom (lsn : Nat) : Option (Fpsi α) :=
  s.records.find? fun f => lsn ≤ f.lsn && s.indexed f.lsn

/-- No record from the replay position on is missing before one that is in the logindex. -/
def Complete : Prop :=
  ∀ f ∈ s.records, ∀ g ∈ s.records, s.replayed ≤ g.lsn → g.lsn < f.lsn →
    s.indexed f.lsn = true → s.indexed g.lsn = true

instance (s : State α κ) : Decidable s.Complete :=
  inferInstanceAs (Decidable (∀ f ∈ s.records, ∀ g ∈ s.records, s.replayed ≤ g.lsn →
    g.lsn < f.lsn → s.indexed f.lsn = true → s.indexed g.lsn = true))

/-- A step of the primary, or of the replica. A change is inserted under the exclusive content lock,
and a replica that finds no record waits and tries again. -/
def step (s : State α κ) : Op α κ → Option (State α κ)
  | .change len c =>
    match s.flush with
    | .idle =>
      if 0 < len then
        some { s with
          history := s.history ++ [⟨s.insert + len, c⟩]
          insert := s.insert + len
          buffer := ⟨s.insert + len, page.redo c s.buffer.content⟩ }
      else none
    | _ => none
  | .log len => if 0 < len then some { s with insert := s.insert + len } else none
  | .copy =>
    match s.flush, s.copyBuffer with
    | .idle, none => some { s with copyBuffer := some s.buffer }
    | _, _ => none
  | .flush oldestApplyLsn =>
    match s.flush with
    | .idle =>
      if s.buffer.lsn ≤ oldestApplyLsn then
        some { s with storage := s.buffer, copyBuffer := none }
      else none
    | _ => none
  | .flushCopy oldestApplyLsn =>
    match s.flush, s.copyBuffer with
    | .idle, some c =>
      if c.lsn ≤ oldestApplyLsn then some { s with storage := c, copyBuffer := none } else none
    | _, _ => none
  | .logFullpage oldestApplyLsn len =>
    match s.flush with
    | .idle =>
      if oldestApplyLsn < s.buffer.lsn ∧ 0 < len then
        let f := ⟨s.insert, s.maxFullpageNo, s.oldVersion oldestApplyLsn⟩
        some { s with
          records := s.records ++ [f]
          insert := s.insert + len
          maxFullpageNo := s.maxFullpageNo + 1
          flush := .logged f }
      else none
    | _ => none
  | .writeFullpage =>
    match s.flush with
    | .logged f =>
      some { s with
        slots := Function.update s.slots f.fullpageNo (some f.image)
        flush := .imaged }
    | _ => none
  | .writePage =>
    match s.flush with
    | .imaged => some { s with storage := s.buffer, copyBuffer := none, flush := .idle }
    | _ => none
  | .logOther len =>
    if 0 < len then
      some { s with insert := s.insert + len, maxFullpageNo := s.maxFullpageNo + 1 }
    else none
  | .writeOther fullpageNo v =>
    if fullpageNo < s.maxFullpageNo ∧ ∀ f ∈ s.records, f.fullpageNo ≠ fullpageNo then
      some { s with slots := Function.update s.slots fullpageNo (some v) }
    else none
  | .replay lsn =>
    if s.replayed ≤ lsn ∧ lsn ≤ s.insert then some { s with replayed := lsn } else none
  | .read =>
    match s.reader with
    | .idle => some { s with reader := .read s.storage }
    | _ => none
  | .index =>
    match s.records[s.received]? with
    | some f =>
      some { s with
        received := s.received + 1, indexed := Function.update s.indexed f.lsn true }
    | none => none
  | .drop =>
    if s.received < s.records.length then some { s with received := s.received + 1 } else none
  | .loadIndex lsn =>
    if lsn ≤ s.insert then some { s with indexed := fun l => s.indexed l || l < lsn } else none
  | .search =>
    match s.reader with
    | .read v =>
      if s.replayed < v.lsn then
        match s.firstFrom s.replayed with
        | some f => some { s with reader := .found f s.replayed }
        | none => some s
      else none
    | _ => none
  | .load =>
    match s.reader with
    | .found f replayed => some { s with reader := .restored (s.slots f.fullpageNo) replayed }
    | _ => none
  | .leave => some { s with reader := .idle }

end State

/-- The replica has replayed what an ordinary flush, of the buffer or of the copy buffer, takes to
be replayed. -/
def FlushApplied (s : State α κ) : Op α κ → Prop
  | .flush oldestApplyLsn | .flushCopy oldestApplyLsn => oldestApplyLsn ≤ s.replayed
  | _ => True

/-- Moreover the replica has replayed a copy buffer that is taken as the old version, and its
logindex has no gap when it is searched. -/
def Applied (s : State α κ) : Op α κ → Prop
  | .logFullpage oldestApplyLsn _ =>
    ∀ c ∈ s.copyBuffer, c.lsn ≤ oldestApplyLsn → c.lsn ≤ s.replayed
  | .search => s.Complete
  | op => FlushApplied s op

end Polar.FullPage
