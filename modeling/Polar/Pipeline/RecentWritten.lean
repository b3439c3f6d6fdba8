import Polar.Base.Ring
import Polar.Base.Run
import Polar.Pipeline.CopyRecord

/-!
# The recent-written array

Inserters add a link for every piece of WAL they have copied; the advancing thread follows the
links from the ready position on, clears them and publishes how far it has come. A link lives in
the slot of its byte position modulo the size of the array, a power of two. The WAL is written up to
the ready position, in whole pages of the WAL buffers.
-/

namespace Polar.Pipeline.RecentWritten

/-- The sizes of the WAL and of the array. -/
structure Config where
  /-- Pages of a segment. -/
  pages : Nat
  pages_pos : 0 < pages
  /-- `polar_wal_pipeline_recent_written_array_size` is a power of two. -/
  sizeBits : Nat
  /-- `polar_wal_pipeline_advance_worker_write_max_size`; 0 means no limit. -/
  writeMaxSize : Nat

namespace Config

variable (c : Config)

def arraySize : Nat := 2 ^ c.sizeBits

/-- `XLogRecPtrToBytePos`. -/
def bytePos (ptr : Nat) : Nat := recPtrToBytePos c.pages ptr

/-- `polar_wal_pipeline_get_recent_written_slot`. -/
def slot (pos : Nat) : Nat := pos &&& (c.arraySize - 1)

end Config

/-- An inserter in `CopyXLogRecordToWAL`: the links it has to add, and whether the piece of the
first one is copied. -/
structure Inserter where
  links : List Link
  copied : Bool
  deriving DecidableEq, Repr

/-- Where the advancing thread is. -/
inductive Advancer where
  | idle
  /-- In the loop of `polar_wal_pipeline_recent_written_advance`. -/
  | follow (oldPos tailPos : Nat)
  /-- Out of the loop, going to publish. -/
  | publish (tailPos : Nat)
  deriving DecidableEq, Repr

/-- The array, the inserters and what is written. -/
structure State where
  slots : Nat → Nat
  readyWritePosition : Nat
  advancer : Advancer
  /-- `Insert->CurrBytePos`. -/
  currBytePos : Nat
  inserters : List Inserter
  /-- The links of all records reserved so far, in their order. -/
  history : List Link
  /-- The pieces copied into the WAL buffers. -/
  copied : List Link
  /-- What the WAL file holds at a byte position: nothing until its page is written, then whether
  the byte was copied when the page was written last. -/
  file : Nat → Option Bool
  logWriteResult : Nat

/-- One step of an inserter, of the advancing thread or of the writer. -/
inductive Op where
  | insert (isLogSwitch : Bool) (rdata : List Nat)
  /-- The inserter copies its next piece. -/
  | copy (i : Nat)
  /-- `polar_wal_pipeline_recent_written_add_link`. -/
  | addLink (i : Nat)
  | advance
  /-- `polar_wal_pipeline_write` at the requested position. -/
  | write (rqst : Nat)
  deriving Repr

namespace State

variable (c : Config)

/-- Everything before byte position `pos` is copied, ready and written. -/
def init (pos : Nat) : State :=
  { slots := fun _ => 0, readyWritePosition := pos, advancer := .idle, currBytePos := pos
    inserters := [], history := []
    copied := [(bytePosToRecPtr c.pages 0, bytePosToEndRecPtr c.pages pos)]
    file := fun p => if p < pos then some true else none
    logWriteResult := bytePosToEndRecPtr c.pages pos }

/-- `polar_wal_pipeline_get_ready_write_lsn`. -/
def readyWriteLsn (s : State) : Nat :=
  bytePosToEndRecPtr c.pages s.readyWritePosition

/-- A step of `polar_wal_pipeline_recent_written_advance`. -/
def advance (s : State) : State :=
  match s.advancer with
  | .idle => { s with advancer := .follow s.readyWritePosition s.readyWritePosition }
  | .follow oldPos tailPos =>
    let distance := s.slots (c.slot tailPos)
    if distance = 0 then
      { s with advancer := if oldPos < tailPos then .publish tailPos else .idle }
    else
      let next := tailPos + distance
      { s with
        slots := Function.update s.slots (c.slot tailPos) 0
        advancer :=
          if c.writeMaxSize ≠ 0 ∧ c.writeMaxSize < next - oldPos then .publish next
          else .follow oldPos next }
  | .publish tailPos =>
    { s with
      readyWritePosition := c.bytePos (bytePosToEndRecPtr c.pages tailPos)
      advancer := .idle }

/-- Whether the byte position is in a piece that has been copied into the WAL buffers. -/
def isCopied (s : State) (pos : Nat) : Bool :=
  s.copied.any fun l => c.bytePos l.1 ≤ pos && pos < c.bytePos l.2

/-- `XLogWrite` writes whole pages of the WAL buffers, from the page of its last write position to
the page of the request, and is then at the request. -/
def xlogWrite (rqst : Nat) (s : State) : State :=
  if s.logWriteResult < rqst then
    { s with
      file := fun pos =>
        let page := bytePosToRecPtr c.pages pos / xlogBlcksz
        if s.logWriteResult / xlogBlcksz ≤ page ∧ page * xlogBlcksz < rqst then
          some (s.isCopied c pos)
        else s.file pos
      logWriteResult := rqst }
  else s

/-- `polar_wal_pipeline_write`. -/
def polarWalPipelineWrite (rqst : Nat) (s : State) : State :=
  s.xlogWrite c (min rqst (s.readyWriteLsn c))

/-- A step of the system. The space test of `add_link` and its store are one step: the space only
grows between them. -/
def step (s : State) : Op → Option State
  | .insert isLogSwitch rdata => do
      let r ← reserve c.pages isLogSwitch s.currBytePos rdata.sum
      let links := copyXLogRecordToWAL c.pages isLogSwitch rdata r.startPos r.endPos
      return { s with
        currBytePos := r.endBytePos, inserters := s.inserters ++ [⟨links, false⟩]
        history := s.history ++ links }
  | .copy i =>
    match s.inserters[i]? with
    | some ⟨link :: links, false⟩ =>
      some { s with
        inserters := s.inserters.set i ⟨link :: links, true⟩, copied := link :: s.copied }
    | _ => none
  | .addLink i =>
    match s.inserters[i]? with
    | some ⟨(startLsn, endLsn) :: links, true⟩ =>
      if s.readyWritePosition + c.arraySize > c.bytePos startLsn then
        some { s with
          slots := Function.update s.slots (c.slot (c.bytePos startLsn))
            (c.bytePos endLsn - c.bytePos startLsn)
          inserters := s.inserters.set i ⟨links, false⟩ }
      else none
    | _ => none
  | .advance => some (s.advance c)
  | .write rqst => some (s.polarWalPipelineWrite c rqst)

/-- The links that are not added yet. -/
def pending (s : State) : List Link := s.inserters.flatMap Inserter.links

/-- How far the links have been consumed. -/
def tailPos (s : State) : Nat :=
  match s.advancer with
  | .idle => s.readyWritePosition
  | .follow _ tailPos | .publish tailPos => tailPos

end State

end Polar.Pipeline.RecentWritten
