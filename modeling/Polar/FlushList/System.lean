import Polar.Base.Run
import Mathlib.Logic.Function.Basic
import Mathlib.Order.Nat

/-!
# Flush lists, copy buffers and the consistent LSN

A dirty buffer is in the flush list of its partition under a lower bound for the start of its first
unwritten modification. A copy buffer takes over the modifications of the page it copied, under the
bound the buffer had then. The consistent LSN is the minimum of all of these bounds, computed in two
passes.

Whoever writes, copies or flushes a buffer has pinned it and holds its content lock (exclusive to
write it, shared otherwise), and those who copy or flush it hold its I/O lock, so that one of them
is at work on a buffer at a time: its task. The tasks of different buffers interleave. A process in
`InvalidateBuffer` has neither a pin nor a lock on the buffer once it has cleared its header, so it
runs beside the task.
-/

namespace Polar.FlushList

/-- `POLAR_FLUSHLIST_PARTITIONS`. -/
def partitions : Nat := 64

/-- `polar_buffer_get_flushlist_partition`. -/
def partition (b : Nat) : Nat := b % partitions

/-- Where a process is in `polar_free_copy_buffer` and `polar_reset_buffer_oldest_lsn`. -/
inductive Release where
  | freeCopy
  /-- The copy is unlinked from the buffer. -/
  | freeOldest (c : Nat)
  /-- The oldest LSN of the copy is invalid. -/
  | freeSlot (c : Nat)
  /-- The copy buffer is in the free list. -/
  | freed
  deriving DecidableEq, Repr

/-- What is being done with a buffer. -/
inductive Task where
  | free
  /-- A backend has locked the content exclusively. -/
  | locked
  /-- `polar_set_buffer_fake_oldest_lsn` has seen the first touch after the copy. -/
  | touching
  /-- It has adjusted the position in the flush list. -/
  | adjusted
  /-- `MarkBufferDirty` is done; the WAL records follow. -/
  | dirtied
  /-- `copy_buffer_alloc` has taken a copy buffer from the free list. -/
  | copyTaken (c : Nat)
  /-- It has copied the page. -/
  | copyContent (c : Nat)
  /-- It has set the oldest LSN of the copy. -/
  | copyOldest (c : Nat)
  /-- In `polar_flush_copy_buffer`, before the write. -/
  | copyFlush
  /-- In `FlushBuffer`, before the write. -/
  | flush
  /-- After the write; with `reset` the buffer leaves the flush list. -/
  | release (r : Release) (reset : Bool)
  deriving DecidableEq, Repr

/-- The descriptor of a buffer. -/
structure Buffer where
  /-- The buffer holds a page: `BM_TAG_VALID`. -/
  tagged : Bool
  /-- `BM_DIRTY`. -/
  dirty : Bool
  /-- `oldest_lsn`, if valid. -/
  oldest : Option Nat
  /-- `copy_buffer`. -/
  copy : Option Nat
  /-- `POLAR_BUF_FIRST_TOUCHED_AFTER_COPY`. -/
  touched : Bool
  /-- The start LSNs of the modifications that are not in the page on storage. -/
  unwritten : List Nat
  task : Task
  /-- The processes in `InvalidateBuffer` that have cleared the header. -/
  invalidators : List Release
  deriving DecidableEq, Repr

/-- A buffer without a page. -/
def Buffer.init : Buffer :=
  { tagged := false, dirty := false, oldest := none, copy := none, touched := false
    unwritten := [], task := .free, invalidators := [] }

/-- The descriptor of a copy buffer. -/
structure CopyBuffer where
  /-- It is not in the free list. -/
  used : Bool
  oldest : Option Nat
  /-- The modifications in the copied page that were not on storage then. -/
  modifications : List Nat
  deriving DecidableEq, Repr

/-- A free copy buffer. -/
def CopyBuffer.init : CopyBuffer := { used := false, oldest := none, modifications := [] }

/-- A process that updates the consistent LSN. -/
inductive Calc where
  | idle
  /-- It has read the consistent LSN. -/
  | started (cur : Nat)
  /-- Going to read copy buffer `index`. -/
  | copies (cur lsn index : Nat)
  /-- Before the comparison in `update_consistent_lsn_delta`. -/
  | update (cur next : Nat)
  /-- Before `polar_set_consistent_lsn`. -/
  | publish (next : Nat)
  deriving DecidableEq, Repr

/-- The buffers, their lists and who works on them. -/
structure State where
  /-- `GetXLogInsertRecPtr`. -/
  insertLsn : Nat
  buffers : Nat → Buffer
  lists : Nat → List Nat
  copies : Nat → CopyBuffer
  consistentLsn : Nat
  calcs : List Calc
  /-- The consistent LSN was going backwards. -/
  panicked : Bool

/-- One step on a buffer, or of a calculation. -/
inductive Op where
  /-- `GetVictimBuffer` returns the buffer, and `BufferAlloc` gives it to another page. -/
  | reuse (b : Nat)
  /-- A backend locks the content of the buffer exclusively. -/
  | lock (b : Nat)
  /-- `MarkBufferDirty`. -/
  | markDirty (b : Nat)
  | unlock (b : Nat)
  /-- A WAL record of the given length, for a modification of each of the buffers. -/
  | insert (bs : List Nat) (len : Nat)
  | copy (b c : Nat)
  | copyFlush (b : Nat)
  | flush (b : Nat)
  /-- `InvalidateBuffer` clears the header: the page is dropped. -/
  | invalidate (b : Nat)
  /-- The next step of a process in `InvalidateBuffer`. -/
  | invalidator (b k : Nat)
  /-- The next step of the task of the buffer. -/
  | next (b : Nat)
  /-- A new process that updates the consistent LSN. -/
  | calculator
  /-- Its next step. -/
  | calculate (j : Nat)
  deriving Repr

/-- The older one of two LSNs that may be invalid. -/
def minLsn : Option Nat → Option Nat → Option Nat
  | none, other => other
  | some lsn, none => some lsn
  | some lsn, some other => some (min lsn other)

namespace State

/-- Nothing is dirty. -/
def init (insertLsn consistentLsn : Nat) : State :=
  { insertLsn, buffers := fun _ => .init, lists := fun _ => [], copies := fun _ => .init
    consistentLsn, calcs := [], panicked := false }

variable (s : State)

def setBuffer (b : Nat) (buf : Buffer) : State :=
  { s with buffers := Function.update s.buffers b buf }

def setTask (b : Nat) (task : Task) : State :=
  s.setBuffer b { s.buffers b with task }

def setCopy (c : Nat) (copy : CopyBuffer) : State :=
  { s with copies := Function.update s.copies c copy }

def setList (b : Nat) (list : List Nat) : State :=
  { s with lists := Function.update s.lists (partition b) list }

/-- `XLogInsert`: the record starts at the insert position. -/
def insertRecord (bs : List Nat) (len : Nat) : State :=
  { s with
    insertLsn := s.insertLsn + len
    buffers := fun b =>
      if b ∈ bs then
        { s.buffers b with unwritten := s.insertLsn :: (s.buffers b).unwritten }
      else s.buffers b }

/-- `polar_put_buffer_to_flush_list` with a fake LSN. -/
def putBuffer (b : Nat) : State :=
  (s.setList b (s.lists (partition b) ++ [b])).setBuffer b
    { s.buffers b with oldest := some s.insertLsn, task := .dirtied }

/-- `polar_adjust_position_in_flush_list`. -/
def adjustPosition (b : Nat) : State :=
  let list := s.lists (partition b)
  (if list.getLast? = some b then s else s.setList b (list.erase b ++ [b])).setBuffer b
    { s.buffers b with oldest := some s.insertLsn, task := .adjusted }

/-- `MarkBufferDirty` up to the first touch after a copy: `polar_set_buffer_fake_oldest_lsn`. -/
def markDirty (b : Nat) : State :=
  let buf := s.buffers b
  let s := s.setBuffer b { buf with dirty := true }
  if buf.oldest = none then s.putBuffer b
  else if buf.copy.isSome ∧ buf.touched = false then s.setTask b .touching
  else s.setTask b .dirtied

/-- `polar_reset_buffer_oldest_lsn`. -/
def resetOldest (b : Nat) : State :=
  match (s.buffers b).oldest with
  | none => s
  | some _ =>
    (s.setList b ((s.lists (partition b)).erase b)).setBuffer b
      { s.buffers b with oldest := none, touched := false }

/-- A step of `polar_free_copy_buffer`, and where it leads. -/
def freeStep (b : Nat) : Release → State × Release
  | .freeCopy =>
    match (s.buffers b).copy with
    | none => (s, .freed)
    | some c => (s.setBuffer b { s.buffers b with copy := none, touched := false }, .freeOldest c)
  | .freeOldest c => (s.setCopy c { s.copies c with oldest := none }, .freeSlot c)
  | .freeSlot c => (s.setCopy c { s.copies c with used := false }, .freed)
  | .freed => (s, .freed)

/-- The next step of the task of a buffer. A flushed copy is the page on storage, and
`TerminateBufferIO` clears `BM_DIRTY`. -/
def nextTask (b : Nat) : Option State :=
  let buf := s.buffers b
  match buf.task with
  | .free | .locked | .dirtied => none
  | .touching => some (s.adjustPosition b)
  | .adjusted => some (s.setBuffer b { buf with touched := true, task := .dirtied })
  | .copyTaken c =>
    some ((s.setCopy c { s.copies c with modifications := buf.unwritten }).setTask b
      (.copyContent c))
  | .copyContent c =>
    some ((s.setCopy c { s.copies c with oldest := buf.oldest }).setTask b (.copyOldest c))
  | .copyOldest c => some (s.setBuffer b { buf with copy := some c, task := .free })
  | .copyFlush =>
    buf.copy.map fun c =>
      s.setBuffer b
        { buf with
          unwritten := buf.unwritten.filter (· ∉ (s.copies c).modifications)
          task := .release .freeCopy false }
  | .flush => some (s.setBuffer b { buf with unwritten := [], task := .release .freeCopy true })
  | .release .freed false => some (s.setTask b .free)
  | .release .freed true =>
    let s' := s.resetOldest b
    some (s'.setBuffer b { s'.buffers b with dirty := false, task := .free })
  | .release r reset =>
    let (s', r') := s.freeStep b r
    some (s'.setTask b (.release r' reset))

/-- The next step of a process in `InvalidateBuffer`, which was at `r`. -/
def invalidatorStep (b k : Nat) : Release → State
  | .freed =>
    let s' := s.resetOldest b
    s'.setBuffer b { s'.buffers b with invalidators := (s'.buffers b).invalidators.eraseIdx k }
  | r =>
    let (s', r') := s.freeStep b r
    s'.setBuffer b { s'.buffers b with invalidators := (s'.buffers b).invalidators.set k r' }

/-- The oldest LSN of the first buffer of each list. -/
def listsMin : Option Nat :=
  (List.range partitions).foldl (fun lsn i =>
    minLsn lsn ((s.lists i).head?.bind fun b => (s.buffers b).oldest)) none

/-- A step of a process that updates the consistent LSN, with `copyBuffers` copy buffers. The lists
and the insert position are read under the locks of all partitions. -/
def calcStep (copyBuffers : Nat) (s : State) (j : Nat) : Calc → State
  | .idle => { s with calcs := s.calcs.set j (.started s.consistentLsn) }
  | .started cur =>
    { s with
      calcs := s.calcs.set j (match s.listsMin with
        | none => .update cur s.insertLsn
        | some lsn => .copies cur lsn 0) }
  | .copies cur lsn index =>
    { s with
      calcs := s.calcs.set j
        (if index < copyBuffers then
          .copies cur (((s.copies index).oldest.map (min lsn)).getD lsn) (index + 1)
        else .update cur lsn) }
  | .update cur next =>
    if next < cur then { s with panicked := true }
    else { s with calcs := s.calcs.set j (.publish next) }
  | .publish next =>
    { s with
      calcs := s.calcs.set j .idle
      consistentLsn := if next > s.consistentLsn then next else s.consistentLsn }

def step (copyBuffers : Nat) (s : State) : Op → Option State
  | .reuse b =>
    let buf := s.buffers b
    if buf.task = .free ∧ buf.dirty = false then
      some (s.setBuffer b { buf with tagged := true, touched := false })
    else none
  | .lock b =>
    if (s.buffers b).task = .free ∧ (s.buffers b).tagged then some (s.setTask b .locked) else none
  | .markDirty b =>
    let buf := s.buffers b
    if buf.task = .locked ∨ buf.task = .dirtied then
      some (s.markDirty b)
    else none
  | .unlock b =>
    if (s.buffers b).task = .locked ∨ (s.buffers b).task = .dirtied then
      some (s.setTask b .free)
    else none
  | .insert bs len =>
    if ∀ b ∈ bs, (s.buffers b).task = .dirtied then
      some (s.insertRecord bs len)
    else none
  | .copy b c =>
    let buf := s.buffers b
    if buf.task = .free ∧ buf.tagged ∧ buf.dirty ∧ buf.copy = none ∧ buf.oldest.isSome ∧
        c < copyBuffers ∧ (s.copies c).used = false then
      some ((s.setCopy c { s.copies c with used := true }).setTask b (.copyTaken c))
    else none
  | .copyFlush b =>
    let buf := s.buffers b
    if buf.task = .free ∧ buf.tagged ∧ buf.dirty ∧ buf.copy.isSome then
      some (s.setTask b .copyFlush)
    else none
  | .flush b =>
    let buf := s.buffers b
    if buf.task = .free ∧ buf.tagged ∧ buf.dirty then some (s.setTask b .flush) else none
  | .invalidate b =>
    let buf := s.buffers b
    if buf.task = .free ∧ buf.tagged then
      some (s.setBuffer b
        { buf with
          tagged := false
          dirty := false
          unwritten := []
          invalidators := buf.invalidators ++ [.freeCopy] })
    else none
  | .invalidator b k => (s.buffers b).invalidators[k]?.map (s.invalidatorStep b k)
  | .next b => s.nextTask b
  | .calculator => some { s with calcs := s.calcs ++ [.idle] }
  | .calculate j => s.calcs[j]?.map (s.calcStep copyBuffers j)

end State

end Polar.FlushList
