import Mathlib.Order.Lattice.Nat
import Polar.Ringbuf.Basic

/-!
# Reserved packets and the tape they form

A packet is reserved by advancing `pwrite`, and its own producer then takes it through the phases
of `XLogInsertRecord`. The reserved packets, in the order of their reservation, tile the positions
below `pwrite`; `tape` is the byte each position holds on that unbounded tape.
-/

namespace Polar.Ringbuf

open List

/-- How far a packet's producer has come. -/
inductive Phase where
  /-- `pwrite` was advanced over the packet. -/
  | claimed
  /-- `polar_ringbuf_wait_for_space` has returned. -/
  | granted
  /-- The packet length is written. -/
  | sized
  /-- The packet flag is set. -/
  | published
deriving DecidableEq, Repr

/-- A reserved packet with what its producer has written so far. -/
structure Packet where
  start : Nat
  len : UInt32
  phase : Phase
  flag : UInt8
  payload : Nat → UInt8

namespace Packet

variable (pk : Packet)

/-- The position after the packet. -/
def stop : Nat := pk.start + pktSize pk.len.toNat

/-- The packet as its reservation leaves it. -/
def claim (start : Nat) (len : UInt32) : Packet :=
  ⟨start, len, .claimed, pktFree, fun _ => pktFree⟩

/-- `polar_ringbuf_wait_for_space` returned to the producer. -/
def grant : Packet := { pk with phase := .granted }

/-- The producer stored the packet length. -/
def setLength : Packet := { pk with phase := .sized }

/-- The producer stored packet data at `offset`. -/
def wrote (offset : Nat) (buf : List UInt8) : Packet :=
  { pk with payload := Ring.splice pk.payload offset buf }

/-- The producer set the packet flag. -/
def publish (flag : UInt8) : Packet := { pk with phase := .published, flag := flag }

@[simp] theorem grant_start : pk.grant.start = pk.start := rfl
@[simp] theorem grant_len : pk.grant.len = pk.len := rfl
@[simp] theorem setLength_start : pk.setLength.start = pk.start := rfl
@[simp] theorem setLength_len : pk.setLength.len = pk.len := rfl
@[simp] theorem wrote_start (offset : Nat) (buf : List UInt8) :
    (pk.wrote offset buf).start = pk.start := rfl
@[simp] theorem wrote_len (offset : Nat) (buf : List UInt8) :
    (pk.wrote offset buf).len = pk.len := rfl
@[simp] theorem publish_start (flag : UInt8) :
    (pk.publish flag).start = pk.start := rfl
@[simp] theorem publish_len (flag : UInt8) : (pk.publish flag).len = pk.len := rfl

/-- The byte at an offset into the packet, head included. -/
def byte (off : Nat) : UInt8 :=
  match pk.phase with
  | .claimed | .granted => pktFree
  | .sized | .published =>
    if off = 0 then
      if pk.phase = .published then pk.flag else pktFree
    else if off < pktHdrSize then
      ((Bytes.ofNat 4 pk.len.toNat)[off - 1]?).getD pktFree
    else
      pk.payload (off - pktHdrSize)

theorem byte_hdr_add {pk : Packet} (hphase : pk.phase = .sized ∨ pk.phase = .published)
    (i : Nat) : pk.byte (pktHdrSize + i) = pk.payload i := by
  rcases hphase with hp | hp <;> simp [byte, hp, pktHdrSize]

/-- The packet data as its producer wrote it. -/
def bytes : List UInt8 := Ring.slice pk.payload 0 pk.len.toNat

theorem start_lt_stop : pk.start < pk.stop := by
  simp only [stop, pktSize, pktHdrSize]
  omega

end Packet

/-- The packets tile the positions from `a` up to `b`, in order. -/
def Layout : Nat → List Packet → Nat → Prop
  | a, [], b => a = b
  | a, pk :: rest, b => pk.start = a ∧ Layout pk.stop rest b

namespace Layout

variable {a b : Nat} {pkts : List Packet}

section

variable (h : Layout a pkts b)
include h

theorem le : a ≤ b := by
  induction pkts generalizing a with
  | nil => exact le_of_eq h
  | cons q rest ih => exact h.1.ge.trans (q.start_lt_stop.le.trans (ih h.2))

theorem bounds {pk : Packet} (hpk : pk ∈ pkts) : a ≤ pk.start ∧ pk.stop ≤ b := by
  induction pkts generalizing a with
  | nil => cases hpk
  | cons q rest ih =>
    obtain ⟨hstart, hrest⟩ := h
    rcases mem_cons.mp hpk with rfl | hmem
    · exact ⟨hstart.ge, hrest.le⟩
    · obtain ⟨h₁, h₂⟩ := ih hrest hmem
      exact ⟨hstart.symm.le.trans (q.start_lt_stop.le.trans h₁), h₂⟩

/-- Every position below the end lies in one of the packets. -/
theorem cover {p : Nat} (hp : a ≤ p) (hp' : p < b) : ∃ pk ∈ pkts, pk.start ≤ p ∧ p < pk.stop := by
  induction pkts generalizing a with
  | nil =>
    have hab : a = b := h
    omega
  | cons q rest ih =>
    obtain ⟨hstart, hrest⟩ := h
    rcases lt_or_ge p q.stop with hlt | hge
    · exact ⟨q, mem_cons_self, hstart.le.trans hp, hlt⟩
    · obtain ⟨pk, hmem, hin⟩ := ih hrest hge
      exact ⟨pk, mem_cons_of_mem _ hmem, hin⟩

variable {pk pk' : Packet}

/-- Packets at different indices do not overlap. -/
theorem disjoint {i j : Nat} (hi : pkts[i]? = some pk)
    (hj : pkts[j]? = some pk') (hij : i < j) : pk.stop ≤ pk'.start := by
  induction pkts generalizing a i j with
  | nil => simp at hi
  | cons q rest ih =>
    obtain ⟨hstart, hrest⟩ := h
    cases j with
    | zero => omega
    | succ j =>
      cases i with
      | zero =>
        obtain rfl : q = pk := by simpa using hi
        exact (hrest.bounds (mem_of_getElem? hj)).1
      | succ i =>
        exact ih hrest hi hj (by omega)

theorem eq_of_contains (hpk : pk ∈ pkts)
    (hpk' : pk' ∈ pkts) {p : Nat} (hin : pk.start ≤ p ∧ p < pk.stop)
    (hin' : pk'.start ≤ p ∧ p < pk'.stop) : pk = pk' := by
  obtain ⟨i, hi⟩ := mem_iff_getElem?.mp hpk
  obtain ⟨j, hj⟩ := mem_iff_getElem?.mp hpk'
  rcases Nat.lt_trichotomy i j with hij | rfl | hij
  · have := h.disjoint hi hj hij
    omega
  · exact Option.some.inj (hi.symm.trans hj)
  · have := h.disjoint hj hi hij
    omega

theorem append_claim (len : UInt32) :
    Layout a (pkts ++ [Packet.claim b len]) (b + pktSize len.toNat) := by
  induction pkts generalizing a with
  | nil =>
    have hab : a = b := h
    exact ⟨hab.symm, rfl⟩
  | cons q rest ih => exact ⟨h.1, ih h.2⟩

/-- Replacing a packet by one at the same place keeps the tiling. -/
theorem set {k : Nat} (hk : pkts[k]? = some pk)
    (hstart : pk'.start = pk.start) (hlen : pk'.len = pk.len) : Layout a (pkts.set k pk') b := by
  induction pkts generalizing a k with
  | nil => exact h
  | cons q rest ih =>
    cases k with
    | zero =>
      obtain rfl : q = pk := by simpa using hk
      have hstop : pk'.stop = q.stop := by simp only [Packet.stop, hstart, hlen]
      exact ⟨hstart.trans h.1, hstop ▸ h.2⟩
    | succ k => exact ⟨h.1, ih h.2 (by simpa using hk)⟩

end

end Layout

theorem mem_set_of_ne {α : Type*} {l : List α} {k : Nat} {a b q : α} (hk : l[k]? = some a)
    (hq : q ∈ l) (hne : q ≠ a) : q ∈ l.set k b := by
  obtain ⟨j, hj⟩ := mem_iff_getElem?.mp hq
  have hjk : k ≠ j := by
    rintro rfl
    exact hne (Option.some.inj (hj.symm.trans hk))
  exact mem_iff_getElem?.mpr ⟨j, by rw [List.getElem?_set_ne hjk, hj]⟩

/-- The byte at a position of the tape of reserved packets. -/
def tape (pkts : List Packet) (p : Nat) : UInt8 :=
  match pkts.find? fun pk => pk.start ≤ p && p < pk.stop with
  | some pk => pk.byte (p - pk.start)
  | none => pktFree

section Tape

variable {w : Nat} {pkts : List Packet}

section

variable (h : Layout 0 pkts w)
include h

variable {pk : Packet} {p : Nat}

theorem tape_eq_byte (hpk : pk ∈ pkts)
    (hp : pk.start ≤ p) (hp' : p < pk.stop) : tape pkts p = pk.byte (p - pk.start) := by
  cases hfind : pkts.find? fun pk => decide (pk.start ≤ p) && decide (p < pk.stop) with
  | none =>
    have := List.find?_eq_none.mp hfind pk hpk
    simp [hp, hp'] at this
  | some q =>
    have hq : q.start ≤ p ∧ p < q.stop := by simpa using List.find?_some hfind
    obtain rfl : q = pk :=
      h.eq_of_contains (mem_of_find?_eq_some hfind) hpk hq ⟨hp, hp'⟩
    simp only [tape, hfind]

/-- Nothing is on the tape at or after `pwrite`. -/
theorem tape_of_le (hp : w ≤ p) : tape pkts p = pktFree := by
  have hfind : (pkts.find? fun pk => decide (pk.start ≤ p) && decide (p < pk.stop)) = none := by
    apply List.find?_eq_none.mpr
    intro pk hpk hin
    have := (h.bounds hpk).2
    simp only [Bool.and_eq_true, decide_eq_true_eq] at hin
    omega
  simp only [tape, hfind]

/-- A change of one packet is seen on that packet's own positions only. -/
theorem tape_set_of_outside {k : Nat} {pk pk' : Packet}
    (hk : pkts[k]? = some pk) (hstart : pk'.start = pk.start) (hlen : pk'.len = pk.len)
    (hp : p < pk.start ∨ pk.stop ≤ p) : tape (pkts.set k pk') p = tape pkts p := by
  have h' := h.set hk hstart hlen
  rcases lt_or_ge p w with hlt | hge
  · obtain ⟨q, hq, hin, hin'⟩ := h.cover (Nat.zero_le p) hlt
    have hq' : q ∈ pkts.set k pk' := mem_set_of_ne hk hq (by rintro rfl; omega)
    rw [tape_eq_byte h hq hin hin', tape_eq_byte h' hq' hin hin']
  · rw [tape_of_le h hge, tape_of_le h' hge]

theorem tape_set_of_inside {k : Nat} {pk pk' : Packet}
    (hk : pkts[k]? = some pk) (hstart : pk'.start = pk.start) (hlen : pk'.len = pk.len)
    (hp : pk.start ≤ p) (hp' : p < pk.stop) :
    tape (pkts.set k pk') p = pk'.byte (p - pk.start) := by
  have hmem : pk' ∈ pkts.set k pk' := by
    obtain ⟨hlt, -⟩ := List.getElem?_eq_some_iff.mp hk
    exact mem_set hlt pk'
  have hstop : pk'.stop = pk.stop := by simp only [Packet.stop, hstart, hlen]
  rw [tape_eq_byte (h.set hk hstart hlen) hmem (hstart.le.trans hp) (hstop ▸ hp'), hstart]

theorem tape_append_claim (len : UInt32) : tape (pkts ++ [Packet.claim w len]) = tape pkts := by
  funext p
  have h' := h.append_claim len
  rcases lt_or_ge p w with hlt | hge
  · obtain ⟨q, hq, hin, hin'⟩ := h.cover (Nat.zero_le p) hlt
    rw [tape_eq_byte h hq hin hin', tape_eq_byte h' (mem_append_left _ hq) hin hin']
  · rw [tape_of_le h hge]
    rcases lt_or_ge p (w + pktSize len.toNat) with hlt | hge'
    · have hmem : Packet.claim w len ∈ pkts ++ [Packet.claim w len] := by simp
      exact tape_eq_byte h' hmem hge hlt
    · exact tape_of_le h' hge'

/-- The tape holds the length word of a sized packet after its flag. -/
theorem slice_tape_len (hpk : pk ∈ pkts) (hphase : pk.phase = .sized ∨ pk.phase = .published) :
    Ring.slice (tape pkts) (pk.start + 1) 4 = Bytes.ofNat 4 pk.len.toNat := by
  apply ext_getElem
  · rw [Ring.length_slice, Bytes.length_ofNat]
  · intro i hi hi'
    rw [Ring.length_slice] at hi
    have hin : pk.start + 1 + i < pk.stop := by
      simp only [Packet.stop, pktSize, pktHdrSize]
      omega
    rw [Ring.getElem_slice, tape_eq_byte h hpk (by omega) hin,
      show pk.start + 1 + i - pk.start = i + 1 by omega]
    have hhdr : i + 1 < pktHdrSize := Nat.succ_lt_succ hi
    rcases hphase with hp | hp <;>
      simp [Packet.byte, hp, hhdr, List.getElem?_eq_getElem hi']

/-- The tape holds the packet data after the packet head. -/
theorem slice_tape_payload (hpk : pk ∈ pkts)
    (hphase : pk.phase = .sized ∨ pk.phase = .published) {offset len : Nat}
    (hlen : offset + len ≤ pk.len.toNat) :
    Ring.slice (tape pkts) (pk.start + pktHdrSize + offset) len =
      Ring.slice pk.payload offset len := by
  apply ext_getElem
  · rw [Ring.length_slice, Ring.length_slice]
  · intro i hi _
    rw [Ring.length_slice] at hi
    have hin : pk.start + pktHdrSize + offset + i < pk.stop := by
      simp only [Packet.stop, pktSize]
      omega
    rw [Ring.getElem_slice, Ring.getElem_slice, tape_eq_byte h hpk (by omega) hin,
      show pk.start + pktHdrSize + offset + i - pk.start = pktHdrSize + (offset + i) by omega,
      Packet.byte_hdr_add hphase]

end

end Tape

/-- Where the first packet starts that is not yet published, or `pwrite` if there is none. -/
def firstUnpublished (pkts : List Packet) (w : Nat) : Nat :=
  match pkts.find? fun pk => pk.phase ≠ .published with
  | some pk => pk.start
  | none => w

theorem firstUnpublished_le {a w : Nat} {pkts : List Packet} (h : Layout a pkts w) {pk : Packet}
    (hpk : pk ∈ pkts) (hphase : pk.phase ≠ .published) : firstUnpublished pkts w ≤ pk.start := by
  induction pkts generalizing a with
  | nil => cases hpk
  | cons q rest ih =>
    by_cases hq : q.phase = .published
    · rcases mem_cons.mp hpk with rfl | hmem
      · exact absurd hq hphase
      · have hrest := ih h.2 hmem
        simpa only [firstUnpublished, List.find?_cons, hq, ne_eq, not_true_eq_false,
          decide_false] using hrest
    · have hfirst : firstUnpublished (q :: rest) w = q.start := by
        simp [firstUnpublished, hq]
      rw [hfirst, h.1]
      exact (h.bounds hpk).1

/-- A position no packet straddles and before which every packet is published. -/
structure Settled (pkts : List Packet) (w p : Nat) : Prop where
  le_pwrite : p ≤ w
  before : ∀ pk ∈ pkts, pk.start < p → pk.stop ≤ p ∧ pk.phase = .published

namespace Settled

variable {w p : Nat} {pkts : List Packet}

theorem zero : Settled pkts w 0 := ⟨Nat.zero_le w, fun _ _ h => absurd h (Nat.not_lt_zero _)⟩

variable (h : Settled pkts w p)
include h

/-- Below `pwrite` a settled position is the start of a reserved packet. -/
theorem exists_start (hl : Layout 0 pkts w) (hp : p < w) :
    ∃ pk ∈ pkts, pk.start = p := by
  obtain ⟨pk, hmem, hle, hlt⟩ := hl.cover (Nat.zero_le p) hp
  rcases lt_or_eq_of_le hle with hlt' | heq
  · have := (h.before pk hmem hlt').1
    omega
  · exact ⟨pk, hmem, heq⟩

/-- A settled position may move past the published packet that starts there. -/
theorem stop_of_published (hl : Layout 0 pkts w) {pk : Packet}
    (hpk : pk ∈ pkts) (hstart : pk.start = p) (hpub : pk.phase = .published) :
    Settled pkts w pk.stop := by
  refine ⟨(hl.bounds hpk).2, fun q hq hlt => ?_⟩
  rcases lt_or_ge q.start p with hqp | hqp
  · obtain ⟨hstop, hqpub⟩ := h.before q hq hqp
    have := pk.start_lt_stop
    exact ⟨by omega, hqpub⟩
  · obtain rfl : q = pk :=
      hl.eq_of_contains hq hpk ⟨le_rfl, q.start_lt_stop⟩ ⟨hstart.trans_le hqp, hlt⟩
    exact ⟨le_rfl, hpub⟩

theorem append_claim (len : UInt32) :
    Settled (pkts ++ [Packet.claim w len]) (w + pktSize len.toNat) p := by
  refine ⟨Nat.le_add_right_of_le h.le_pwrite, fun pk hpk hlt => ?_⟩
  rcases mem_append.mp hpk with hmem | hmem
  · exact h.before pk hmem hlt
  · obtain rfl : pk = Packet.claim w len := by simpa using hmem
    exact absurd hlt (Nat.not_lt.mpr h.le_pwrite)

/-- Work of a producer on its own unpublished packet does not unsettle a position. -/
theorem set {k : Nat} {pk pk' : Packet} (hk : pkts[k]? = some pk)
    (hstart : pk'.start = pk.start) (hphase : pk.phase ≠ .published) :
    Settled (pkts.set k pk') w p := by
  refine ⟨h.le_pwrite, fun q hq hlt => ?_⟩
  rcases mem_or_eq_of_mem_set hq with hmem | rfl
  · exact h.before q hmem hlt
  · exact absurd (h.before pk (mem_of_getElem? hk) (hstart ▸ hlt)).2 hphase

end Settled

end Polar.Ringbuf
