import Polar.Base.Run
import Polar.Ringbuf.Tape

/-!
# Producers, references and the read position, step by step

Any number of producers and up to 32 references work on one ring buffer. A producer's packet is an
entry of `pkts`; its operations are those `XLogInsertRecord` performs, one shared access at a time.
The exclusive lock is held by at most one process, which is either in the middle of
`polar_ringbuf_update_pread` (`updater`) or finishes its work on the slots in one step. References
advance without the lock, so the scan of the slots is one step per slot.

`polar_ringbuf_ref_keep_data` runs in the process that owns the data-keep reference; `newPread`
is the reader position `polar_logindex_primary_save` hands to it and `keeper` the call's progress.
-/

namespace Polar.Ringbuf

open Function

/-- The progress of the process inside `polar_ringbuf_update_pread`, which holds the lock. -/
inductive Updater where
  | idle
  /-- The slots still to be read and the least position so far. -/
  | scan (todo : List Nat) (min : Option Nat)
  /-- The freed region is cleared and the new read position not yet stored. -/
  | cleared (min : Nat)
deriving DecidableEq, Repr

/-- The progress of a call of `polar_ringbuf_ref_keep_data`. -/
structure Keeper where
  ref : Ref
  keepSize : Nat
  /-- The local variable `pwrite` of the loop, once it is read. -/
  pwrite : Option Nat
deriving DecidableEq, Repr

/-- The loop has no work left for the value of `pwrite` it has read. -/
def Keeper.exhausted (kp : Keeper) (rb : Ringbuf) : Bool :=
  match kp.pwrite with
  | none => true
  | some pwrite => pwrite ≤ (rb.slot kp.ref.slot).pread + kp.keepSize

/-- The shared memory, the packets of the producers and the local variables of the readers. -/
structure Sys where
  rb : Ringbuf
  pkts : List Packet
  refs : List Ref
  /-- The holder of the slot saw a ready packet at the slot's present position. -/
  polled : Nat → Bool
  /-- The read position at which the slot's present reference was created. -/
  origin : Nat → Nat
  /-- The packets the slot's present reference has read, as type and data. -/
  got : Nat → List (UInt8 × List UInt8)
  updater : Updater
  newPread : Nat
  keeper : Option Keeper

/-- The atomic actions of the processes. -/
inductive Op where
  | reserve (len : UInt32)
  | waitForSpace (k : Nat)
  | setPktLength (k : Nat)
  | pktWrite (k offset : Nat) (buf : List UInt8)
  | setPktFlag (k : Nat) (flag : UInt8)
  | newRef (strong : Bool)
  | setRefStrong (ref : Ref) (strong : Bool)
  | nextPktType (ref : Ref)
  | updateRef (ref : Ref)
  | releaseRef (ref : Ref)
  | evictRef
  | updateBegin
  | updateScan
  | updateClear
  | updatePublish
  | takeNewPread (ref : Ref)
  | keepBegin (ref : Ref) (keepSize : Nat)
  | keepSample
  | keepAdvance
  | keepEnd
deriving DecidableEq, Repr

/-- Who performs an action. -/
inductive Process where
  | producer
  | reference
  | updater
  | keeper

/-- Who takes the step. -/
def Op.process : Op → Process
  | .reserve _ | .waitForSpace _ | .setPktLength _ | .pktWrite _ _ _ | .setPktFlag _ _ => .producer
  | .newRef _ | .setRefStrong _ _ | .nextPktType _ | .updateRef _ | .releaseRef _ | .evictRef =>
    .reference
  | .updateBegin | .updateScan | .updateClear | .updatePublish => .updater
  | .takeNewPread _ | .keepBegin _ _ | .keepSample | .keepAdvance | .keepEnd => .keeper

namespace Sys

/-- The state after `polar_ringbuf_init`. -/
def init (size refNum : Nat) : Sys where
  rb := Ringbuf.init size refNum
  pkts := []
  refs := []
  polled := fun _ => false
  origin := fun _ => 0
  got := fun _ => []
  updater := .idle
  newPread := 0
  keeper := none

variable (s : Sys)

/-- A reference some process holds and whose slot still carries its number. -/
def live (ref : Ref) : Bool := ref ∈ s.refs && s.rb.refMatch ref

/-- Apply `f` to the packet at index `k` if its producer has reached `phase`. -/
def onPacket (k : Nat) (phase : Phase) (f : Packet → Option Sys) : Option Sys :=
  match s.pkts[k]? with
  | none => none
  | some pk => if pk.phase = phase then f pk else none

theorem onPacket_eq_some {k : Nat} {phase : Phase} {f : Packet → Option Sys} {t : Sys}
    (h : s.onPacket k phase f = some t) :
    ∃ pk, s.pkts[k]? = some pk ∧ pk.phase = phase ∧ f pk = some t := by
  unfold onPacket at h
  cases hk : s.pkts[k]? with
  | none => simp [hk] at h
  | some pk =>
    obtain ⟨hphase, hf⟩ : pk.phase = phase ∧ f pk = some t := by simpa [hk] using h
    exact ⟨pk, rfl, hphase, hf⟩

/-- The holder's knowledge about a slot is void once the slot has a new position or owner. -/
def forget (i : Nat) : Nat → Bool := update s.polled i false

/-- The first half of `polar_ringbuf_ref_keep_data`: adopt the reader's position when more than
`keepSize` bytes would still be kept. -/
def adoptNewPread (ref : Ref) (keepSize : Nat) : Sys :=
  if s.newPread ≤ (s.rb.slot ref.slot).pread then
    s
  else if s.rb.pwrite > s.newPread + keepSize then
    { s with
      rb := { s.rb with
        slot := update s.rb.slot ref.slot
          { s.rb.slot ref.slot with pread := s.newPread } }
      polled := s.forget ref.slot }
  else
    s

/-- One atomic action; `none` when its process is not at that point. -/
def step (s : Sys) : Op → Option Sys
  | .reserve len =>
    let (start, rb) := s.rb.pktReserve (pktSize len.toNat)
    some { s with rb := rb, pkts := s.pkts ++ [Packet.claim start len] }
  | .waitForSpace k => s.onPacket k .claimed fun pk =>
    if s.rb.spaceFor pk.start (pktSize pk.len.toNat) then
      some { s with pkts := s.pkts.set k pk.grant }
    else none
  | .setPktLength k => s.onPacket k .granted fun pk =>
    some { s with
      rb := s.rb.setPktLength pk.start pk.len
      pkts := s.pkts.set k pk.setLength }
  | .pktWrite k offset buf => s.onPacket k .sized fun pk =>
    match s.rb.pktWrite pk.start offset buf with
    | none => some s
    | some rb => some { s with
        rb := rb
        pkts := s.pkts.set k (pk.wrote offset buf) }
  | .setPktFlag k flag => s.onPacket k .sized fun pk =>
    if flag &&& pktStateMask = pktReady then
      some { s with
        rb := s.rb.setPktFlag pk.start flag
        pkts := s.pkts.set k (pk.publish flag) }
    else none
  | .newRef strong =>
    if s.updater = .idle then
      match s.rb.newRef strong with
      | none => some s
      | some (ref, rb) =>
        some { s with
          rb := rb
          refs := ref :: s.refs
          polled := s.forget ref.slot
          origin := update s.origin ref.slot s.rb.pread
          got := update s.got ref.slot [] }
    else none
  | .setRefStrong ref strong =>
    if s.updater = .idle ∧ ref ∈ s.refs then
      some { s with rb := (s.rb.setRefStrongProperty ref strong).2 }
    else none
  | .nextPktType ref =>
    if s.live ref then
      let ready := (s.rb.nextPktType ref).1 != pktInvalidType
      some { s with polled := update s.polled ref.slot ready }
    else none
  | .updateRef ref =>
    if s.live ref ∧ (s.rb.slot ref.slot).strong ∧ s.polled ref.slot then
      some { s with
        rb := s.rb.updateRef ref
        polled := s.forget ref.slot
        got := update s.got ref.slot (s.got ref.slot ++ [s.rb.nextPkt ref]) }
    else none
  | .releaseRef ref =>
    if s.updater = .idle ∧ s.live ref then
      some { s with
        rb := s.rb.freeSlot ref.slot
        refs := s.refs.erase ref
        polled := s.forget ref.slot
        updater := .scan (s.rb.freeSlot ref.slot).occupiedSlots none }
    else none
  | .evictRef =>
    if s.updater = .idle then
      match s.rb.evictRef with
      | none => some s
      | some rb => some { s with rb := rb }
    else none
  | .updateBegin =>
    if s.updater = .idle then some { s with updater := .scan s.rb.occupiedSlots none } else none
  | .updateScan =>
    match s.updater with
    | .scan (i :: todo) min => some { s with updater := .scan todo (s.rb.scanSlot min i) }
    | _ => none
  | .updateClear =>
    match s.updater with
    | .scan [] (some min) =>
      if s.rb.pread ≠ min then
        some { s with rb := s.rb.clearFreed min, updater := .cleared min }
      else some { s with updater := .idle }
    | .scan [] none => some { s with updater := .idle }
    | _ => none
  | .updatePublish =>
    match s.updater with
    | .cleared min => some { s with rb := { s.rb with pread := min }, updater := .idle }
    | _ => none
  | .takeNewPread ref =>
    if s.live ref then some { s with newPread := (s.rb.slot ref.slot).pread } else none
  | .keepBegin ref keepSize =>
    if s.keeper = none ∧ s.live ref then
      some { s.adoptNewPread ref keepSize with keeper := some ⟨ref, keepSize, none⟩ }
    else none
  | .keepSample =>
    match s.keeper with
    | none => none
    | some kp =>
      if kp.exhausted s.rb then
        some { s with keeper := some { kp with pwrite := some s.rb.pwrite } }
      else none
  | .keepAdvance =>
    match s.keeper with
    | none => none
    | some kp =>
      if s.live kp.ref ∧ kp.exhausted s.rb = false then
        some { s with rb := s.rb.updateRef kp.ref, polled := s.forget kp.ref.slot }
      else none
  | .keepEnd =>
    match s.keeper with
    | none => none
    | some kp =>
      if kp.pwrite.isSome ∧ kp.exhausted s.rb then some { s with keeper := none } else none

section

variable {s t : Sys}

theorem step_pktWrite {k offset : Nat} {buf : List UInt8}
    (h : s.step (.pktWrite k offset buf) = some t) :
    ∃ pk, s.pkts[k]? = some pk ∧ pk.phase = .sized ∧
      (t = s ∨ ∃ rb, s.rb.pktWrite pk.start offset buf = some rb ∧
        t = { s with rb := rb, pkts := s.pkts.set k (pk.wrote offset buf) }) := by
  obtain ⟨pk, hk, hphase, h⟩ := s.onPacket_eq_some h
  refine ⟨pk, hk, hphase, ?_⟩
  split at h <;> cases h
  · exact .inl rfl
  · next rb hwrite => exact .inr ⟨rb, hwrite, rfl⟩

theorem step_newRef {strong : Bool} (h : s.step (.newRef strong) = some t) :
    s.updater = .idle ∧ (t = s ∨ ∃ ref rb, s.rb.newRef strong = some (ref, rb) ∧
      t = { s with
        rb := rb
        refs := ref :: s.refs
        polled := s.forget ref.slot
        origin := update s.origin ref.slot s.rb.pread
        got := update s.got ref.slot [] }) := by
  obtain ⟨hidle, h⟩ := Option.ite_none_right_eq_some.mp h
  refine ⟨hidle, ?_⟩
  split at h <;> cases h
  · exact .inl rfl
  · next ref rb hnew => exact .inr ⟨ref, rb, hnew, rfl⟩

theorem step_evictRef (h : s.step .evictRef = some t) :
    s.updater = .idle ∧ (t = s ∨ ∃ i, t = { s with rb := s.rb.freeSlot i }) := by
  obtain ⟨hidle, h⟩ := Option.ite_none_right_eq_some.mp h
  refine ⟨hidle, ?_⟩
  split at h <;> cases h
  · exact .inl rfl
  · next rb hevict =>
    obtain ⟨i, rfl⟩ := s.rb.evictRef_eq_some hevict
    exact .inr ⟨i, rfl⟩

/-- The updater touches the area, the least read position and its own progress. -/
theorem update_frame {op : Op} (hop : op.process = .updater) (h : s.step op = some t) :
    ∃ data pread updater,
      t = { s with rb := { s.rb with data := data, pread := pread }, updater := updater } := by
  cases op <;> cases hop <;> simp only [step] at h <;> split at h <;> try split at h
  all_goals first
    | exact ⟨_, _, _, (Option.some.inj h).symm⟩
    | cases h

end

end Sys

end Polar.Ringbuf
