import Polar.Ringbuf.System

/-!
# The invariant of the ring buffer

The physical area mirrors the tape of reserved packets on one window of `size` positions. The
window starts at `base`: at the least read position, or at the new one as soon as the freed region
is cleared. Every reference stands on a settled position of that window.
-/

namespace Polar.Ringbuf

namespace Sys

/-- The first position of the window the area mirrors. -/
def base (s : Sys) : Nat :=
  match s.updater with
  | .cleared min => min
  | _ => s.rb.pread

/-- A position no packet straddles and before which every packet is published. -/
def settled (s : Sys) (p : Nat) : Prop := Settled s.pkts s.rb.pwrite p

end Sys

/-- What holds in every reachable state. -/
structure Inv (s : Sys) : Prop where
  size_pos : 0 < s.rb.size
  layout : Layout 0 s.pkts s.rb.pwrite
  granted : ∀ pk ∈ s.pkts, pk.phase ≠ .claimed → pk.stop ≤ s.rb.pread + (s.rb.size - 1)
  fresh : ∀ pk ∈ s.pkts, pk.phase = .claimed ∨ pk.phase = .granted →
    ∀ i, pk.payload i = pktFree
  ready : ∀ pk ∈ s.pkts, pk.phase = .published → pk.flag &&& pktStateMask = pktReady
  mirror : Ring.Mirrors s.rb.size s.rb.data (tape s.pkts) s.base (s.base + s.rb.size)
  pread_settled : s.settled s.rb.pread
  pread_le_base : s.rb.pread ≤ s.base
  base_settled : s.settled s.base
  slots : ∀ i, s.rb.occupied i → s.base ≤ (s.rb.slot i).pread ∧ s.settled (s.rb.slot i).pread
  occupied_lt : ∀ i, s.rb.occupied i → i < maxSlot
  vacant : ∀ i, s.rb.occupied i = false → (s.rb.slot i).refNum = 0
  numbered : ∀ ref ∈ s.refs, 0 < ref.refNum
  polled : ∀ i, s.rb.occupied i → s.polled i →
    ∃ pk ∈ s.pkts, pk.start = (s.rb.slot i).pread ∧ pk.phase = .published
  scanned : ∀ todo min, s.updater = .scan todo min →
    ∀ i, s.rb.occupied i → i ∈ todo ∨ ∃ m, min = some m ∧ m ≤ (s.rb.slot i).pread
  scan_occupied : ∀ todo min, s.updater = .scan todo min → ∀ i ∈ todo, s.rb.occupied i
  scan_min : ∀ todo m, s.updater = .scan todo (some m) → s.rb.pread ≤ m ∧ s.settled m
  newPread : s.settled s.newPread
  keeper : ∀ kp, s.keeper = some kp → ∀ w, kp.pwrite = some w → w ≤ s.rb.pwrite ∧
    ∀ pk ∈ s.pkts, pk.phase ≠ .published → w ≤ pk.start + kp.keepSize

namespace Inv

variable {s : Sys}

theorem init {size : Nat} (hsize : 0 < size) (refNum : Nat) : Inv (Sys.init size refNum) where
  size_pos := hsize
  layout := rfl
  granted := by simp [Sys.init]
  fresh := by simp [Sys.init]
  ready := by simp [Sys.init]
  mirror := fun _ _ _ => rfl
  pread_settled := Settled.zero
  pread_le_base := le_refl 0
  base_settled := Settled.zero
  slots := by simp [Sys.init, Ringbuf.init]
  occupied_lt := by simp [Sys.init, Ringbuf.init]
  vacant := fun _ _ => rfl
  numbered := by simp [Sys.init]
  polled := by simp [Sys.init]
  scanned := by simp [Sys.init]
  scan_occupied := by simp [Sys.init]
  scan_min := by simp [Sys.init]
  newPread := Settled.zero
  keeper := by simp [Sys.init]

/-! ### Consequences -/

section

variable (h : Inv s)
include h

/-- A live reference's slot is occupied. -/
theorem occupied_of_live {ref : Ref} (hlive : s.live ref) :
    s.rb.occupied ref.slot = true := by
  simp only [Sys.live, Ringbuf.refMatch, Bool.and_eq_true, decide_eq_true_eq, beq_iff_eq] at hlive
  obtain ⟨hmem, -, hnum⟩ := hlive
  by_contra hocc
  have hzero := h.vacant ref.slot (by simpa using hocc)
  have := h.numbered ref hmem
  omega

/-- An unpublished packet lies after the start of the window. -/
theorem base_le_start {pk : Packet} (hpk : pk ∈ s.pkts)
    (hphase : pk.phase ≠ .published) : s.base ≤ pk.start := by
  by_contra hlt
  exact hphase (h.base_settled.before pk hpk (by omega)).2

/-- A packet its producer may write lies inside the window, with one position to spare. -/
theorem stop_le_window {pk : Packet} (hpk : pk ∈ s.pkts)
    (hphase : pk.phase ≠ .claimed) : pk.stop ≤ s.base + (s.rb.size - 1) :=
  (h.granted pk hpk hphase).trans (Nat.add_le_add_right h.pread_le_base _)

/-- Settled positions do not leave the window. -/
theorem le_window_of_settled {p : Nat} (hp : s.settled p) :
    p ≤ s.base + (s.rb.size - 1) := by
  rcases Nat.eq_zero_or_pos p with rfl | hpos
  · exact Nat.zero_le _
  · obtain ⟨pk, hmem, hle, hlt⟩ := h.layout.cover (Nat.zero_le (p - 1))
      (lt_of_lt_of_le (Nat.sub_lt hpos Nat.one_pos) hp.le_pwrite)
    obtain ⟨hstop, hpub⟩ := hp.before pk hmem (by omega)
    have := h.stop_le_window hmem (by simp [hpub])
    omega

/-- Past the last granted packet the tape is blank. -/
theorem tape_blank {p : Nat} (hp : s.rb.pread + (s.rb.size - 1) ≤ p) :
    tape s.pkts p = pktFree := by
  rcases lt_or_ge p s.rb.pwrite with hlt | hge
  · obtain ⟨pk, hmem, hle, hlt'⟩ := h.layout.cover (Nat.zero_le p) hlt
    have hclaimed : pk.phase = .claimed := by
      by_contra hphase
      have := h.granted pk hmem hphase
      omega
    rw [tape_eq_byte h.layout hmem hle hlt']
    simp only [Packet.byte, hclaimed]
  · exact tape_of_le h.layout hge

theorem data_eq_tape {p : Nat} (hp : s.base ≤ p) (hp' : p < s.base + s.rb.size) :
    s.rb.data (s.rb.idx p) = tape s.pkts p :=
  h.mirror p hp hp'

/-- A live reference at whose position the ready bit is set stands on a published packet. -/
theorem exists_packet_of_ready {i : Nat} (hocc : s.rb.occupied i)
    (hready : s.rb.data (s.rb.idx (s.rb.slot i).pread) &&& pktStateMask = pktReady) :
    ∃ pk ∈ s.pkts, pk.start = (s.rb.slot i).pread ∧ pk.phase = .published := by
  obtain ⟨hbase, hsettled⟩ := h.slots i hocc
  have hwin := h.le_window_of_settled hsettled
  have hsize := h.size_pos
  rw [h.data_eq_tape hbase (by omega)] at hready
  have hlt : (s.rb.slot i).pread < s.rb.pwrite := by
    by_contra hge
    rw [tape_of_le h.layout (Nat.le_of_not_lt hge)] at hready
    exact absurd hready (by decide)
  obtain ⟨pk, hmem, hstart⟩ := hsettled.exists_start h.layout hlt
  refine ⟨pk, hmem, hstart, ?_⟩
  rw [tape_eq_byte h.layout hmem hstart.le (hstart ▸ pk.start_lt_stop), ← hstart,
    Nat.sub_self] at hready
  cases hphase : pk.phase with
  | published => rfl
  | claimed | granted | sized =>
    simp [Packet.byte, hphase, pktFree, pktReady] at hready

end

/-! ### What the readers find in the window -/

variable {pk : Packet}

/-- The length word of a sized packet reads back what its producer stored. -/
theorem getPktLength_eq (h : Inv s) (hpk : pk ∈ s.pkts) (hbase : s.base ≤ pk.start)
    (hphase : pk.phase = .sized ∨ pk.phase = .published) :
    s.rb.getPktLength pk.start = pk.len.toNat := by
  have hstop := h.stop_le_window hpk (by rcases hphase with hp | hp <;> simp [hp])
  have hlen : pk.start + 1 + 4 ≤ pk.stop := by
    simp only [Packet.stop, pktSize, pktHdrSize]
    omega
  rw [Ringbuf.getPktLength, Ringbuf.idx,
    h.mirror.read h.size_pos le_rfl (by omega) (by omega)]
  rw [slice_tape_len h.layout hpk hphase, Bytes.toNat_ofNat_uint32]

/-- Reading packet data inside the window yields the bytes of the packet's own producer. -/
theorem read_payload (h : Inv s) (hpk : pk ∈ s.pkts) (hbase : s.base ≤ pk.start)
    (hphase : pk.phase = .sized ∨ pk.phase = .published) {offset len : Nat}
    (hlen : offset + len ≤ pk.len.toNat) :
    Ring.read s.rb.size s.rb.data (s.rb.idx (pk.start + pktHdrSize + offset)) len =
      Ring.slice pk.payload offset len := by
  have hstop := h.stop_le_window hpk (by rcases hphase with hp | hp <;> simp [hp])
  have hle : pk.start + pktHdrSize + offset + len ≤ pk.stop := by
    simp only [Packet.stop, pktSize]
    omega
  rw [Ringbuf.idx, h.mirror.read h.size_pos le_rfl (by omega) (by omega)]
  exact slice_tape_payload h.layout hpk hphase hlen

/-- At a published packet a reference sees the producer's type and length. -/
theorem nextPktType_eq (h : Inv s) {ref : Ref} (hpk : pk ∈ s.pkts)
    (hstart : pk.start = (s.rb.slot ref.slot).pread) (hbase : s.base ≤ pk.start)
    (hpub : pk.phase = .published) :
    s.rb.nextPktType ref = (pk.flag &&& pktTypeMask, pk.len.toNat) := by
  have hstop := h.stop_le_window hpk (by simp [hpub])
  have hlt := pk.start_lt_stop
  have hdata : s.rb.data (s.rb.idx pk.start) = pk.flag := by
    rw [h.data_eq_tape hbase (by omega), tape_eq_byte h.layout hpk le_rfl hlt]
    simp [Packet.byte, hpub]
  simp only [Ringbuf.nextPktType, ← hstart, hdata, h.ready pk hpk hpub, ne_eq, not_true_eq_false,
    if_false, h.getPktLength_eq hpk hbase (Or.inr hpub)]

/-- At a published packet a reference reads the producer's bytes, and nothing past them. -/
theorem readNextPkt_eq (h : Inv s) {ref : Ref} (hpk : pk ∈ s.pkts)
    (hstart : pk.start = (s.rb.slot ref.slot).pread) (hbase : s.base ≤ pk.start)
    (hpub : pk.phase = .published) (offset len : Nat) :
    s.rb.readNextPkt ref offset len =
      if offset ≥ pk.len.toNat then none else some ((pk.bytes.drop offset).take len) := by
  have hlen := h.getPktLength_eq hpk hbase (Or.inr hpub)
  simp only [Ringbuf.readNextPkt, ← hstart, hlen]
  split
  · rfl
  · next hlt =>
    rw [h.read_payload hpk hbase (Or.inr hpub) (by split <;> omega), Packet.bytes,
      Ring.take_drop_slice, zero_add]
    congr 2
    split <;> omega

end Inv

end Polar.Ringbuf
