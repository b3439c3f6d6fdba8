import Mathlib.Order.Monotone.Basic
import Polar.Base.Run
import Polar.Replica.Cursor

/-!
# Streaming WAL meta to a replica

The primary's WAL is an increasing sequence of records. The walsender streams either packets of
its queue (`y` messages) or bare positions (`p` messages), the walreceiver turns the messages into
packets of the receive queue, and the startup process reads records from that queue or from the
shared WAL files.
-/

namespace Polar.Replica

/-- The records of the WAL, by number. -/
structure Wal where
  start : Nat → Nat
  stop : Nat → Nat
  start_pos : 0 < start 0
  start_lt_stop : ∀ i, start i < stop i
  stop_le_start : ∀ i, stop i ≤ start (i + 1)

namespace Wal

variable (wal : Wal)

/-- `xlog_len` of a packet; together with the end LSN it gives the start. -/
def xlogLen (i : Nat) : Nat := wal.stop i - wal.start i

/-- `end_rec_ptr - xlog_len`. -/
def readRecPtr (i : Nat) : Nat := wal.stop i - wal.xlogLen i

/-- The number of the first record from `i` on that does not start before `ptr`. -/
def seekFrom (ptr : Nat) : Nat → Nat → Nat
  | 0, i => i
  | fuel + 1, i => if ptr ≤ wal.start i then i else seekFrom ptr fuel (i + 1)

/-- The record the WAL files hold next at position `ptr`. -/
def seek (ptr : Nat) : Nat := wal.seekFrom ptr ptr 0

@[simp] theorem readRecPtr_eq (i : Nat) : wal.readRecPtr i = wal.start i := by
  have h := wal.start_lt_stop i
  rw [readRecPtr, xlogLen]
  omega

theorem start_strictMono : StrictMono wal.start :=
  strictMono_nat_of_lt_succ fun i => (wal.start_lt_stop i).trans_le (wal.stop_le_start i)

theorem lt_start (i : Nat) : i < wal.start i := by
  induction i with
  | zero => exact wal.start_pos
  | succ i ih =>
    have hstep : wal.start i < wal.start (i + 1) := wal.start_strictMono (Nat.lt_succ_self i)
    omega

theorem seekFrom_spec (ptr fuel i : Nat) (hi : ∀ k < i, wal.start k < ptr) :
    (∀ k < wal.seekFrom ptr fuel i, wal.start k < ptr) ∧
      (ptr ≤ wal.start (wal.seekFrom ptr fuel i) ∨ wal.seekFrom ptr fuel i = i + fuel) := by
  induction fuel generalizing i with
  | zero => exact ⟨hi, .inr rfl⟩
  | succ fuel ih =>
    rw [seekFrom]
    split
    · next hle => exact ⟨hi, .inl hle⟩
    · next hlt =>
      have hnext : ∀ k < i + 1, wal.start k < ptr := by
        intro k hk
        rcases Nat.lt_succ_iff_lt_or_eq.mp hk with hk | rfl
        · exact hi k hk
        · exact Nat.lt_of_not_le hlt
      obtain ⟨hbefore, hend⟩ := ih (i + 1) hnext
      refine ⟨hbefore, hend.imp_right fun heq => ?_⟩
      omega

/-- The records before the one at `ptr` are those that start before `ptr`. -/
theorem lt_seek_iff {i ptr : Nat} : i < wal.seek ptr ↔ wal.start i < ptr := by
  obtain ⟨hbefore, hend⟩ := wal.seekFrom_spec ptr ptr 0 (fun k hk => absurd hk (Nat.not_lt_zero k))
  refine ⟨hbefore i, fun hlt => ?_⟩
  by_contra hge
  have hstart : ptr ≤ wal.start (wal.seek ptr) := by
    rcases hend with hle | heq
    · exact hle
    · have hptr : wal.seek ptr = ptr := heq.trans (zero_add ptr)
      rw [hptr]
      exact (wal.lt_start ptr).le
  have hmono := wal.start_strictMono.monotone (Nat.le_of_not_lt hge)
  omega

theorem seek_stop (i : Nat) : wal.seek (wal.stop i) = i + 1 := by
  refine eq_of_forall_lt_iff fun k => ?_
  rw [lt_seek_iff, Nat.lt_succ_iff]
  constructor
  · intro hk
    by_contra hlt
    have hmono := wal.start_strictMono.monotone (Nat.succ_le_of_lt (Nat.lt_of_not_le hlt))
    have hstop := wal.stop_le_start i
    rw [Nat.succ_eq_add_one] at hmono
    omega
  · intro hk
    exact (wal.start_strictMono.monotone hk).trans_lt (wal.start_lt_stop i)

theorem seek_mono {p q : Nat} (h : p ≤ q) : wal.seek p ≤ wal.seek q := by
  refine le_of_forall_lt fun k hk => ?_
  rw [lt_seek_iff] at hk ⊢
  exact hk.trans_le h

theorem le_start_seek (ptr : Nat) : ptr ≤ wal.start (wal.seek ptr) := by
  by_contra hlt
  exact lt_irrefl _ (wal.lt_seek_iff.mpr (Nat.lt_of_not_le hlt))

theorem le_seek {i ptr : Nat} (h : wal.start i ≤ ptr) : i ≤ wal.seek ptr :=
  wal.start_strictMono.le_iff_le.mp (h.trans (wal.le_start_seek ptr))

end Wal

/-- A message of the walsender. -/
inductive Msg where
  /-- `p`: the position was advanced, without data. -/
  | physical
  /-- `y`: packets of the queue. -/
  | xlogMeta (records : List Nat)
deriving DecidableEq, Repr

/-- The walsender of the current connection. -/
structure Sender where
  sentPtr : Nat
  /-- `check_succeed` of `polar_xlog_send`. -/
  checkSucceed : Bool
  /-- The packet `xlog_queue_ref` stands at, unless it was evicted. -/
  ref : Option Nat
deriving DecidableEq, Repr

/-- A `y` message `polar_xlog_recv_queue_push` is copying. -/
structure Push where
  copied : Nat
  todo : List Nat
deriving DecidableEq, Repr

/-- The reader of the startup process. -/
structure Reader where
  decodeRecPtr : Nat
  nextRecPtr : Nat
deriving DecidableEq, Repr

/-- The two ends of the stream, and the messages between them. -/
structure State where
  /-- The first record the primary's queue still holds. -/
  kept : Nat
  /-- The number of records inserted and flushed. -/
  inserted : Nat
  /-- The walsender, while a walreceiver is connected to it. -/
  sender : Option Sender
  channel : List Msg
  pushing : Option Push
  /-- `WalRcv->polar_use_xlog_queue`. -/
  useXlogQueue : Bool
  queue : List Packet
  /-- `xlog_queue_catch_up`. -/
  catchUp : Bool
  reader : Reader
  /-- The records returned to the startup process. -/
  got : List Nat
deriving DecidableEq, Repr

/-- An atomic action of one of the processes. -/
inductive Op where
  | insert
  /-- The primary's queue gives up its first packet. -/
  | trim
  | evict
  | check
  | sendQueue (count : Nat)
  | sendPhysical (endptr : Nat)
  | receive
  | push
  /-- The walreceiver exits, on `SIGTERM` or for another reason. -/
  | exit (shutdownRequestPending : Bool)
  | restart (startPoint : Nat)
  /-- `available`: the WAL file has the next record. -/
  | pop (available : Bool)
  /-- `CheckForStandbyTrigger` succeeded while records come from the queue. -/
  | standbyTrigger
deriving DecidableEq, Repr

namespace State

/-- The state in which the startup process begins to read at `nextRecPtr`. -/
def init (nextRecPtr : Nat) : State where
  kept := 0
  inserted := 0
  sender := none
  channel := []
  pushing := none
  useXlogQueue := true
  queue := []
  catchUp := false
  reader := ⟨0, nextRecPtr⟩
  got := []

end State

section Startup

variable (wal : Wal)

/-- `XLogReadAhead`: the next record of the file, if it is there. -/
def readAhead (available : Bool) (s : State) : Option Nat × State :=
  let i := wal.seek s.reader.nextRecPtr
  if available then
    (some i, { s with reader := ⟨wal.start i, wal.stop i⟩, got := s.got ++ [i] })
  else
    (none, s)

/-- `polar_xlog_queue_remove_outdate`, on a queue that starts with a record: the start of the last
record looked at and what remains of the queue. -/
def removeOutdate (decodeRecPtr : Nat) : List Packet → Nat × List Packet
  | .walMeta i :: ps =>
    if wal.readRecPtr i ≤ decodeRecPtr then
      match ps with
      | .walMeta _ :: _ => removeOutdate decodeRecPtr ps
      | _ => (wal.readRecPtr i, ps)
    else
      (wal.readRecPtr i, .walMeta i :: ps)
  | ps => (0, ps)

/-- `polar_xlog_queue_pop_record`: skip the records before `currRecPtr` and return the next. -/
def popRecord (currRecPtr : Nat) : List Packet → Option Nat × List Packet
  | .walMeta i :: ps =>
    if wal.readRecPtr i ≥ currRecPtr then (some i, ps) else popRecord currRecPtr ps
  | ps => (none, ps)

/-- A packet is there while records come from the file: read on from the file, and from the queue
once both are at the same record. -/
def popUntilCatchUp (available : Bool) (s : State) : State :=
  let outdated := removeOutdate wal s.reader.decodeRecPtr s.queue
  let read := readAhead wal available { s with queue := outdated.2 }
  match read.1 with
  | none => read.2
  | some i =>
    if wal.start i = outdated.1 then
      { read.2 with queue := read.2.queue.tail, catchUp := true }
    else read.2

/-- A packet is there while records come from the queue. -/
def popFromQueue (s : State) : State :=
  let popped := popRecord wal s.reader.nextRecPtr s.queue
  match popped.1 with
  | none => { s with queue := popped.2 }
  | some i =>
    { s with
      queue := popped.2
      reader := ⟨wal.readRecPtr i, wal.stop i⟩
      got := s.got ++ [i] }

/-- `polar_xlog_queue_ref_pop_ahead`. -/
def refPopAhead (available : Bool) (s : State) : State :=
  match s.queue with
  | .walMeta _ :: _ =>
    if !s.catchUp then popUntilCatchUp wal available s else popFromQueue wal s
  | .walStorageBegin :: ps =>
    { (readAhead wal available s).2 with queue := ps, catchUp := false }
  | [] => if !s.catchUp then (readAhead wal available s).2 else s

end Startup

section Walsender

variable (wal : Wal)

/-- The loop of `polar_xlog_send_queue_check` over the packets from `ref` on. -/
def checkLoop (startPoint inserted : Nat) : Nat → Nat → Bool → Bool × Nat
  | 0, ref, ret => (ret, ref)
  | fuel + 1, ref, ret =>
    if ref ≥ inserted then
      (ret, ref)
    else
      let ret := ret || decide (wal.readRecPtr ref ≤ startPoint)
      if wal.readRecPtr ref ≥ startPoint then (ret, ref)
      else checkLoop startPoint inserted fuel (ref + 1) ret

/-- `polar_xlog_send_queue_check`: an evicted reference is replaced by a new one at the first
packet kept. -/
def sendQueueCheck (kept inserted : Nat) (snd : Sender) : Sender :=
  let ref := snd.ref.getD kept
  if snd.sentPtr = 0 then
    { snd with checkSucceed := true }
  else
    let (ret, ref) := checkLoop wal snd.sentPtr inserted (inserted - ref + 1) ref false
    { snd with checkSucceed := ret, ref := some ref }

end Walsender

namespace State

variable (wal : Wal) (s : State)

/-- `polar_send_physical_by_queue` sending `count` packets. -/
def sendQueue (count : Nat) (snd : Sender) : Option State :=
  match snd.ref with
  | none => some { s with sender := some { snd with checkSucceed := false } }
  | some ref =>
    if ref + count ≤ s.inserted then
      some { s with
        sender := some
          { snd with
            sentPtr := if count = 0 then snd.sentPtr else wal.stop (ref + count - 1)
            ref := some (ref + count) }
        channel := s.channel ++ [.xlogMeta (List.range' ref count)] }
    else none

/-- `XLogWalRcvProcessMsg` for the messages `p` and `y`. -/
def receiveMsg : Msg → State
  | .physical =>
    if s.useXlogQueue then
      { s with queue := s.queue ++ [.walStorageBegin], useXlogQueue := false }
    else s
  | .xlogMeta [] => s
  | .xlogMeta (i :: is) => { s with pushing := some ⟨0, i :: is⟩ }

/-- One turn of the loop of `polar_xlog_recv_queue_push`; after the last one the flag is set. -/
def pushPacket (copied i : Nat) (todo : List Nat) : State :=
  let s := { s with queue := s.queue ++ [Packet.walMeta i] }
  if todo = [] then { s with pushing := none, useXlogQueue := true }
  else { s with pushing := some ⟨copied + 1, todo⟩ }

/-- One atomic action; `none` when its process is not at that point. -/
def step (s : State) : Op → Option State
  | .insert => some { s with inserted := s.inserted + 1 }
  | .trim =>
    if s.kept < s.inserted ∧ s.sender.bind (·.ref) ≠ some s.kept then
      some { s with kept := s.kept + 1 }
    else none
  | .evict =>
    s.sender.bind fun snd =>
      if snd.ref = some s.kept then some { s with sender := some { snd with ref := none } }
      else none
  | .check =>
    s.sender.bind fun snd =>
      if snd.checkSucceed = false then
        some { s with sender := some (sendQueueCheck wal s.kept s.inserted snd) }
      else none
  | .sendQueue count =>
    s.sender.bind fun snd => if snd.checkSucceed then s.sendQueue wal count snd else none
  | .sendPhysical endptr =>
    s.sender.bind fun snd =>
      if snd.checkSucceed = false ∧ snd.sentPtr < endptr ∧ endptr ≤ wal.stop (s.inserted - 1) then
        some { s with
          sender := some { snd with sentPtr := endptr }
          channel := s.channel ++ [.physical] }
      else none
  | .receive =>
    match s.pushing, s.channel with
    | none, msg :: msgs => some ({ s with channel := msgs }.receiveMsg msg)
    | _, _ => none
  | .push =>
    match s.pushing with
    | some ⟨copied, i :: todo⟩ => some (s.pushPacket copied i todo)
    | _ => none
  | .exit shutdownRequestPending =>
    if s.sender.isSome then
      some { s with
        sender := none
        channel := []
        pushing := none
        queue := if shutdownRequestPending then s.queue else s.queue ++ [.walStorageBegin] }
    else none
  | .restart startPoint =>
    if s.sender = none ∧ 0 < startPoint ∧ startPoint ≤ s.reader.nextRecPtr then
      some { s with sender := some ⟨startPoint, false, some s.kept⟩ }
    else none
  | .pop available => some (refPopAhead wal available s)
  | .standbyTrigger =>
    if s.catchUp then some { s with queue := s.queue ++ [.walStorageBegin] } else none

end State

end Polar.Replica
