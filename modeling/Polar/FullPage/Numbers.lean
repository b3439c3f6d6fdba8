import Polar.Base.Run
import Mathlib.Data.Fintype.Basic
import Mathlib.Data.List.Basic
import Mathlib.Logic.Function.Basic
import Mathlib.Order.Nat

/-!
# The numbers and the files of full-page images

A process takes the next `fullpage_no` and logs it under the file lock, and writes the image to the
slot of that number afterwards. The files are segments with a name each; the checkpointer removes
old segments or gives them a new name, and a restart finds the next number in the WAL.
-/

namespace Polar.FullPage.Numbers

open Function

/-- The settings of the full-page files. -/
structure Params where
  /-- `FULLPAGE_NUM_PER_FILE`. -/
  numPerFile : Nat
  /-- `polar_fullpage_keep_segments`. -/
  keepSegments : Nat
  pos : 0 < numPerFile

/-- `FULLPAGE_FILE_SEG_NO`. -/
def Params.segNo (par : Params) (fullpageNo : Nat) : Nat := fullpageNo / par.numPerFile

/-- `FULLPAGE_FILE_OFFSET`, in pages. -/
def Params.offset (par : Params) (fullpageNo : Nat) : Nat := fullpageNo % par.numPerFile

/-- An FPSI record. -/
structure Fpsi (α : Type*) where
  lsn : Nat
  fullpageNo : Nat
  image : α
  /-- The image has been written. -/
  written : Bool
  deriving DecidableEq

/-- A process in `polar_log_fullpage_snapshot_image`. -/
inductive Pc (α : Type*) where
  | idle
  /-- It has the file lock and a number. -/
  | begun (fullpageNo : Nat) (image : α)
  /-- The record is inserted. -/
  | inserted (lsn fullpageNo : Nat) (image : α)
  /-- The lock is released. -/
  | logged (lsn fullpageNo : Nat) (image : α)
  /-- There is no file for the segment. -/
  | creating (lsn fullpageNo : Nat) (image : α)
  /-- The file is open. -/
  | opened (lsn fullpageNo : Nat) (image : α)

/-- A process that logs full-page images. -/
structure Proc (α : Type*) where
  pc : Pc α
  /-- `open_fullpage_file_seg_no` and `open_fullpage_file`. -/
  openFullpage : Option (Nat × Nat)

/-- The numbers, the records and the files. -/
structure State (α : Type*) (n : Nat) where
  /-- Where the next record starts. -/
  insert : Nat
  records : List (Fpsi α)
  maxFullpageNo : Nat
  /-- The file lock. -/
  lock : Option (Fin n)
  procs : Fin n → Proc α
  /-- The file of each segment. -/
  names : Nat → Option Nat
  /-- The slots of each file. -/
  files : Nat → Nat → Option α
  /-- The files that were made. -/
  made : Nat
  /-- The minimum LSN that the full-page logindex keeps. -/
  kept : Nat
  /-- In `remove_old_fullpage_files`: the segments below are to be removed. -/
  sweep : Option Nat
  /-- Where the WAL ended at the last restart. -/
  restarted : Nat

/-- One step of one process. -/
inductive Op (α : Type*) (n : Nat) where
  /-- `polar_log_fullpage_begin`. -/
  | begin (p : Fin n) (image : α)
  | insert (p : Fin n) (len : Nat)
  /-- `polar_log_fullpage_end`. -/
  | release (p : Fin n)
  /-- `fullpage_file_open`, when the open file is not that of the segment. -/
  | openFile (p : Fin n)
  /-- `polar_fullpage_file_init`. -/
  | create (p : Fin n)
  | write (p : Fin n)
  /-- Another record is logged. -/
  | log (len : Nat)
  /-- A process opens the segment of a number to read a slot. -/
  | read (p : Fin n) (fullpageNo : Nat)
  /-- `polar_prealloc_fullpage_files` makes the segment of a number. -/
  | prealloc (fullpageNo : Nat)
  /-- `polar_logindex_truncate` by the checkpointer, which removes files after that. -/
  | truncate (lsn : Nat)
  /-- `remove_old_fullpage_files` reads the number of the first record that is kept. -/
  | removeOldFiles
  /-- It goes to the segment before. -/
  | removeNext
  /-- A restart or a promotion: the processes that stay, where the WAL ends, where replay begins, and
  whether the WAL of the last record in the logindex is there. -/
  | restart (stays : Fin n → Bool) (flushed redo : Nat) (walExists : Bool)

namespace State

variable {α : Type*} {n : Nat}

/-- No image is logged. -/
def init (n : Nat) : State α n where
  insert := 0
  records := []
  maxFullpageNo := 0
  lock := none
  procs := fun _ => ⟨.idle, none⟩
  names := fun _ => none
  files := fun _ _ => none
  made := 0
  kept := 0
  sweep := none
  restarted := 0

def pc (s : State α n) (p : Fin n) : Pc α := (s.procs p).pc

variable (s : State α n)

def setProc (p : Fin n) (pr : Proc α) : State α n :=
  { s with procs := update s.procs p pr }

def goto (p : Fin n) (pc : Pc α) : State α n :=
  s.setProc p { s.procs p with pc }

/-- The first name in a range that is free. -/
def firstFree (seg max : Nat) : Option Nat :=
  ((List.range (max + 1 - seg)).map (seg + ·)).find? fun j => (s.names j).isNone

/-- `install_fullpage_file_segment` for a file of its own, which is unlinked when no name is
free. -/
def installNew (par : Params) (seg : Nat) : State α n :=
  match s.firstFree seg (seg + par.keepSegments) with
  | some j =>
    { s with
      names := update s.names j (some s.made)
      made := s.made + 1 }
  | none => { s with made := s.made + 1 }

/-- The record is marked once its image is written. -/
def markWritten (lsn : Nat) : State α n :=
  { s with records := s.records.map fun r => if r.lsn = lsn then { r with written := true } else r }

/-- The next number after a restart: that of the last record that is replayed, or else that of the
last record in the logindex, unless the WAL is gone. -/
def recoverFullpageNo (records : List (Fpsi α)) (redo : Nat) (walExists : Bool) : Nat :=
  let replayed := (records.filter fun r => redo ≤ r.lsn).foldl (fun _ r => r.fullpageNo) 0
  if 0 < replayed then replayed
  else
    match records.getLast? with
    | none => replayed
    | some r => if walExists then r.fullpageNo else 0

def step (par : Params) (s : State α n) : Op α n → Option (State α n)
  | .begin p image =>
    match s.pc p, s.lock with
    | .idle, none =>
      some { s.goto p (.begun s.maxFullpageNo image) with
        lock := some p
        maxFullpageNo := s.maxFullpageNo + 1 }
    | _, _ => none
  | .insert p len =>
    match s.pc p with
    | .begun no image =>
      if 0 < len then
        some { s.goto p (.inserted s.insert no image) with
          records := s.records ++ [⟨s.insert, no, image, false⟩]
          insert := s.insert + len }
      else none
    | _ => none
  | .release p =>
    match s.pc p with
    | .inserted lsn no image => some { s.goto p (.logged lsn no image) with lock := none }
    | _ => none
  | .openFile p =>
    match s.pc p with
    | .logged lsn no image =>
      if (s.procs p).openFullpage.any fun f => f.1 = par.segNo no then
        some (s.goto p (.opened lsn no image))
      else
        match s.names (par.segNo no) with
        | some i => some (s.setProc p ⟨.opened lsn no image, some (par.segNo no, i)⟩)
        | none => some (s.goto p (.creating lsn no image))
    | _ => none
  | .create p =>
    match s.pc p, s.lock with
    | .creating lsn no image, none =>
      let t := s.installNew par (par.segNo no)
      (t.names (par.segNo no)).map fun i =>
        t.setProc p ⟨.opened lsn no image, some (par.segNo no, i)⟩
    | _, _ => none
  | .write p =>
    match s.pc p, (s.procs p).openFullpage with
    | .opened lsn no image, some (_, i) =>
      let t := (s.goto p .idle).markWritten lsn
      some { t with
        files := update s.files i
          (update (s.files i) (par.offset no) (some image)) }
    | _, _ => none
  | .log len => if 0 < len then some { s with insert := s.insert + len } else none
  | .read p no =>
    match s.pc p with
    | .idle =>
      if (s.procs p).openFullpage.any fun f => f.1 = par.segNo no then some s
      else
        match s.names (par.segNo no) with
        | some i => some (s.setProc p ⟨.idle, some (par.segNo no, i)⟩)
        | none => none
    | _ => none
  | .prealloc no =>
    match s.names (par.segNo no), s.lock with
    | none, none => some (s.installNew par (par.segNo no))
    | _, _ => none
  | .truncate lsn =>
    if s.sweep = none ∧ s.kept ≤ lsn ∧ s.records.any fun r => r.lsn = lsn then
      some { s with kept := lsn }
    else none
  | .removeOldFiles =>
    match s.sweep, s.records.find? fun r => r.lsn = s.kept with
    | none, some r => some { s with sweep := some (par.segNo r.fullpageNo) }
    | _, _ => none
  | .removeNext =>
    match s.sweep with
    | some (k + 1) =>
      match s.names k with
      | none => some { s with sweep := none }
      | some i =>
        if par.segNo s.maxFullpageNo ≤ k + par.keepSegments then
          if s.lock = none then
            match s.firstFree (par.segNo s.maxFullpageNo) (k + par.keepSegments) with
            | some j =>
              some { s with
                names := update (update s.names k none) j (some i)
                sweep := some k }
            | none => some { s with names := update s.names k none, sweep := some k }
          else none
        else some { s with names := update s.names k none, sweep := some k }
    | some 0 => some { s with sweep := none }
    | none => none
  | .restart stays flushed redo walExists =>
    if flushed ≤ s.insert ∧ redo ≤ flushed then
      let records := s.records.filter fun r => r.lsn < flushed
      some { s with
        insert := flushed
        records
        maxFullpageNo := recoverFullpageNo records redo walExists
        lock := none
        procs := fun p => ⟨.idle, if stays p then (s.procs p).openFullpage else none⟩
        sweep := none
        restarted := flushed }
    else none

end State

variable {α : Type*} {n : Nat}

/-- The condition on a step: a number is taken when the logindex keeps no record from before the
last restart, and an image is written to an open file that has the name of its segment. -/
def Numbered (s : State α n) : Op α n → Prop
  | .begin _ _ => ∀ r ∈ s.records, s.kept ≤ r.lsn → s.restarted ≤ r.lsn
  | .write p => ∀ f ∈ (s.procs p).openFullpage, s.names f.1 = some f.2
  | _ => True

end Polar.FullPage.Numbers
