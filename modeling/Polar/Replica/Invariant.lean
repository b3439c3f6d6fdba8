import Polar.Replica.System

/-!
# No packet is ahead of the reader

The packets of the receive queue, of the message being copied and of the messages under way form
one stream. The invariant says that this stream flows from the reader's cursor and that it goes on
where the walsender stands.
-/

namespace Polar.Replica

open Cursor Option

/-- The packets the messages will add; a position adds a marker only if the queue was in use. -/
def expand : Bool → List Msg → List Packet
  | _, [] => []
  | true, .physical :: msgs => .walStorageBegin :: expand false msgs
  | false, .physical :: msgs => expand false msgs
  | inUse, .xlogMeta is :: msgs => is.map .walMeta ++ expand (inUse || !is.isEmpty) msgs

/-- `polar_use_xlog_queue` once the messages are received. -/
def inUseAfter : Bool → List Msg → Bool
  | inUse, [] => inUse
  | _, .physical :: msgs => inUseAfter false msgs
  | inUse, .xlogMeta is :: msgs => inUseAfter (inUse || !is.isEmpty) msgs

theorem expand_append (inUse : Bool) (msgs : List Msg) (msg : Msg) :
    expand inUse (msgs ++ [msg]) =
      expand inUse msgs ++ expand (inUseAfter inUse msgs) [msg] := by
  induction msgs generalizing inUse with
  | nil => rfl
  | cons m msgs ih =>
    cases m with
    | physical =>
      cases inUse with
      | true => exact congrArg (_ :: ·) (ih false)
      | false => exact ih false
    | xlogMeta is =>
      cases inUse <;>
      · simp only [List.cons_append, expand, inUseAfter, ih, List.append_assoc]

theorem expand_xlogMeta (inUse : Bool) (is : List Nat) :
    expand inUse [.xlogMeta is] = is.map .walMeta := by
  cases inUse <;> exact List.append_nil _

theorem inUseAfter_append (inUse : Bool) (msgs : List Msg) (msg : Msg) :
    inUseAfter inUse (msgs ++ [msg]) = inUseAfter (inUseAfter inUse msgs) [msg] := by
  induction msgs generalizing inUse with
  | nil => rfl
  | cons m msgs ih =>
    cases m with
    | physical => exact ih false
    | xlogMeta is => exact ih _

namespace State

variable (wal : Wal) (s : State)

/-- The number of the record the reader needs next. -/
def next : Nat := wal.seek s.reader.nextRecPtr

/-- Where the startup process reads next. -/
def cursor : Cursor := .ofMode s.catchUp (s.next wal)

/-- The flag as the messages under way will find it. -/
def inUse : Bool := s.pushing.isSome || s.useXlogQueue

/-- The packets that will follow those of the receive queue. -/
def coming : List Packet :=
  (s.pushing.elim [] (·.todo)).map .walMeta ++ expand s.inUse s.channel

/-- The packets that are queued or on their way. -/
def stream : List Packet := s.queue ++ s.coming

/-- The cursor where the next message of the walsender arrives. -/
def horizon : Cursor := (s.cursor wal).atEnd s.stream

end State

/-- What every reachable state satisfies; `first` is the record reading began with. -/
structure Inv (wal : Wal) (first : Nat) (s : State) : Prop where
  got : s.got = List.range' first s.got.length
  next : s.next wal = first + s.got.length
  decoded : ∀ i, wal.start i ≤ s.reader.decodeRecPtr → i < s.next wal
  flows : Flows (s.cursor wal) s.stream
  /-- The flag is clear only if no packet was stored since the last marker. -/
  cleared : s.useXlogQueue = false → (∀ p ∈ s.pushing, p.copied = 0) →
    ((s.cursor wal).atEnd s.queue).IsFile
  clearedAtEnd : inUseAfter s.inUse s.channel = false → (s.horizon wal).IsFile
  sentPtr_pos : ∀ snd ∈ s.sender, 0 < snd.sentPtr
  sent : ∀ snd ∈ s.sender, (s.horizon wal).Allows (wal.seek snd.sentPtr)
  ref : ∀ snd ∈ s.sender, snd.checkSucceed → ∀ r ∈ snd.ref, r ≤ wal.seek snd.sentPtr
  todo : ∀ p ∈ s.pushing, p.todo ≠ []
  offline : s.sender = none → s.channel = [] ∧ s.pushing = none

namespace Inv

variable {wal : Wal} {first : Nat} {s : State}

theorem init (nextRecPtr : Nat) :
    Inv wal (wal.seek nextRecPtr) (State.init nextRecPtr) where
  got := rfl
  next := rfl
  decoded := fun i hi => absurd hi (Nat.not_le.mpr (Nat.zero_lt_of_lt (wal.lt_start i)))
  flows := trivial
  cleared := fun h => Bool.noConfusion h
  clearedAtEnd := fun h => Bool.noConfusion h
  sentPtr_pos := nofun
  sent := nofun
  ref := nofun
  todo := nofun
  offline := fun _ => ⟨rfl, rfl⟩

theorem withSender (h : Inv wal first s) {snd : Sender}
    (hpos : 0 < snd.sentPtr) (hsent : (s.horizon wal).Allows (wal.seek snd.sentPtr))
    (href : snd.checkSucceed → ∀ r ∈ snd.ref, r ≤ wal.seek snd.sentPtr) :
    Inv wal first { s with sender := some snd } :=
  { h with
    sentPtr_pos := fun _ hsnd => some.inj hsnd ▸ hpos
    sent := fun _ hsnd => some.inj hsnd ▸ hsent
    ref := fun _ hsnd => some.inj hsnd ▸ href
    offline := nofun }

theorem send (h : Inv wal first s) {snd : Sender} (msg : Msg)
    (hflows : Flows (s.horizon wal) (expand (inUseAfter s.inUse s.channel) [msg]))
    (hcleared : inUseAfter (inUseAfter s.inUse s.channel) [msg] = false →
      ((s.horizon wal).atEnd (expand (inUseAfter s.inUse s.channel) [msg])).IsFile)
    (hpos : 0 < snd.sentPtr)
    (hsent : ((s.horizon wal).atEnd (expand (inUseAfter s.inUse s.channel) [msg])).Allows
      (wal.seek snd.sentPtr))
    (href : snd.checkSucceed → ∀ r ∈ snd.ref, r ≤ wal.seek snd.sentPtr) :
    Inv wal first { s with sender := some snd, channel := s.channel ++ [msg] } := by
  have hstream : State.stream { s with sender := some snd, channel := s.channel ++ [msg] } =
      s.stream ++ expand (inUseAfter s.inUse s.channel) [msg] := by
    change s.queue ++ (_ ++ expand s.inUse (s.channel ++ [msg])) = _
    rw [expand_append, State.stream, State.coming]
    simp only [List.append_assoc]
  have hhorizon : State.horizon wal { s with sender := some snd, channel := s.channel ++ [msg] } =
      (s.horizon wal).atEnd (expand (inUseAfter s.inUse s.channel) [msg]) := by
    rw [State.horizon, hstream, atEnd_append]
    rfl
  exact
    { h with
      flows := by
        rw [hstream]
        exact flows_append.mpr ⟨h.flows, hflows⟩
      clearedAtEnd := by
        rw [hhorizon]
        intro hclear
        refine hcleared ?_
        rwa [← inUseAfter_append]
      sentPtr_pos := fun _ hsnd => some.inj hsnd ▸ hpos
      sent := by
        rw [hhorizon]
        exact fun _ hsnd => some.inj hsnd ▸ hsent
      ref := fun _ hsnd => some.inj hsnd ▸ href
      offline := nofun }

/-- A message moves on without changing the stream. -/
theorem sameStream (h : Inv wal first s) {t : State} (hreader : t.reader = s.reader)
    (hcatch : t.catchUp = s.catchUp) (hgot : t.got = s.got) (hsnd : t.sender = s.sender)
    (hstream : t.stream = s.stream)
    (hused : inUseAfter t.inUse t.channel = inUseAfter s.inUse s.channel)
    (hcleared : t.useXlogQueue = false → (∀ p ∈ t.pushing, p.copied = 0) →
      ((s.cursor wal).atEnd t.queue).IsFile)
    (htodo : ∀ p ∈ t.pushing, p.todo ≠ []) (honline : s.sender ≠ none) : Inv wal first t := by
  have hnext : t.next wal = s.next wal := by rw [State.next, State.next, hreader]
  have hcursor : t.cursor wal = s.cursor wal := by
    rw [State.cursor, State.cursor, hcatch, hnext]
  have hhorizon : t.horizon wal = s.horizon wal := by
    rw [State.horizon, State.horizon, hcursor, hstream]
  exact
    { got := hgot ▸ h.got
      next := by rw [hnext, hgot, h.next]
      decoded := by
        rw [hreader, hnext]
        exact h.decoded
      flows := by
        rw [hcursor, hstream]
        exact h.flows
      cleared := by
        rwa [hcursor]
      clearedAtEnd := by
        rw [hused, hhorizon]
        exact h.clearedAtEnd
      sentPtr_pos := hsnd ▸ h.sentPtr_pos
      sent := by
        rw [hsnd, hhorizon]
        exact h.sent
      ref := hsnd ▸ h.ref
      todo := htodo
      offline := fun hnone => absurd (hsnd.symm.trans hnone) honline }

end Inv

end Polar.Replica
