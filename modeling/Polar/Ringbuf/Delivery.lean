import Polar.Ringbuf.Preservation

/-!
# Delivery of packets to the references

A reference gets the packets in the order of their reservation, each exactly once and with the
bytes its own producer wrote, from the packet on at which the reference was created.
-/

namespace Polar.Ringbuf

open Option (ite_none_right_eq_some)

open List Function

/-- What a reader is to get for a packet. -/
def Packet.content (pk : Packet) : UInt8 × List UInt8 := (pk.flag &&& pktTypeMask, pk.bytes)

/-- The position of the packet at index `n`. -/
def startAt (pkts : List Packet) (n : Nat) : Nat :=
  ((pkts.take n).map fun pk => pktSize pk.len.toNat).sum

theorem startAt_succ {pkts : List Packet} {n : Nat} {pk : Packet} (h : pkts[n]? = some pk) :
    startAt pkts (n + 1) = startAt pkts n + pktSize pk.len.toNat := by
  rw [startAt, take_add_one, h]
  simp [startAt]

theorem startAt_lt {pkts : List Packet} {a b : Nat} (hab : a < b) (hb : b ≤ pkts.length) :
    startAt pkts a < startAt pkts b := by
  induction b with
  | zero => omega
  | succ b ih =>
    have hstep := startAt_succ (List.getElem?_eq_getElem (show b < pkts.length from hb))
    have hpos : 0 < pktSize (pkts[b]).len.toNat := by
      simp only [pktSize, pktHdrSize]
      omega
    rcases lt_or_eq_of_le (Nat.lt_succ_iff.mp hab) with hlt | rfl
    · omega
    · omega

namespace Layout

variable {a w : Nat} {pkts : List Packet}

theorem start_eq (h : Layout a pkts w) {n : Nat} {pk : Packet} (hn : pkts[n]? = some pk) :
    pk.start = a + startAt pkts n := by
  induction pkts generalizing a n with
  | nil => simp at hn
  | cons q rest ih =>
    cases n with
    | zero =>
      obtain rfl : q = pk := by simpa using hn
      exact h.1
    | succ n =>
      rw [ih h.2 (by simpa using hn), Packet.stop, h.1]
      simp [startAt, add_assoc]

theorem end_eq (h : Layout a pkts w) : w = a + startAt pkts pkts.length := by
  induction pkts generalizing a with
  | nil => exact h.symm
  | cons q rest ih =>
    rw [ih h.2, Packet.stop, h.1]
    simp [startAt, add_assoc]

end Layout

/-- A settled position is that of a packet, or the end. -/
theorem Settled.exists_startAt {w p : Nat} {pkts : List Packet} (h : Settled pkts w p)
    (hl : Layout 0 pkts w) : ∃ n ≤ pkts.length, p = startAt pkts n := by
  rcases lt_or_eq_of_le h.le_pwrite with hlt | rfl
  · obtain ⟨pk, hpk, rfl⟩ := h.exists_start hl hlt
    obtain ⟨n, hn⟩ := mem_iff_getElem?.mp hpk
    obtain ⟨hn', -⟩ := List.getElem?_eq_some_iff.mp hn
    exact ⟨n, hn'.le, by simpa using hl.start_eq hn⟩
  · exact ⟨pkts.length, le_rfl, by simpa using hl.end_eq⟩

/-- The packets read on the way from `origin` to `pos` are the reserved ones, in order. -/
def DeliveredUpTo (pkts : List Packet) (origin pos : Nat) (got : List (UInt8 × List UInt8)) :
    Prop :=
  ∃ a b, a ≤ b ∧ b ≤ pkts.length ∧ origin = startAt pkts a ∧ pos = startAt pkts b ∧
    got = ((pkts.take b).drop a).map Packet.content

namespace DeliveredUpTo

variable {pkts : List Packet} {origin pos w : Nat} {got : List (UInt8 × List UInt8)}

theorem start (hl : Layout 0 pkts w) {p : Nat} (hp : Settled pkts w p) :
    DeliveredUpTo pkts p p [] := by
  obtain ⟨n, hn, hpos⟩ := hp.exists_startAt hl
  refine ⟨n, n, le_rfl, hn, hpos, hpos, ?_⟩
  rw [drop_eq_nil_of_le (by simp), map_nil]

section

variable (h : DeliveredUpTo pkts origin pos got)
include h

/-- What was read depends on the packets before the reader's position only. -/
theorem congr {pkts' : List Packet} (hlen : pkts.length ≤ pkts'.length)
    (htake : ∀ b ≤ pkts.length, pos = startAt pkts b → pkts'.take b = pkts.take b) :
    DeliveredUpTo pkts' origin pos got := by
  obtain ⟨a, b, hab, hb, horigin, hpos, hgot⟩ := h
  have hb' := htake b hb hpos
  have ha' : pkts'.take a = pkts.take a := by
    rw [← min_eq_left hab, ← take_take, hb', take_take]
  refine ⟨a, b, hab, hb.trans hlen, ?_, ?_, ?_⟩
  · simpa only [startAt, ha'] using horigin
  · simpa only [startAt, hb'] using hpos
  · rw [hb', hgot]

theorem append (pk : Packet) : DeliveredUpTo (pkts ++ [pk]) origin pos got := by
  refine h.congr (by simp) fun b hb _ => ?_
  rw [take_append_of_le_length hb]

theorem set (hl : Layout 0 pkts w)
    (hsettled : Settled pkts w pos) {k : Nat} {pk : Packet} (hk : pkts[k]? = some pk)
    (hphase : pk.phase ≠ .published) (pk' : Packet) :
    DeliveredUpTo (pkts.set k pk') origin pos got := by
  refine h.congr (by simp) fun b hb hpos => ?_
  have hbk : b ≤ k := by
    by_contra hlt
    have hstart : pk.start = startAt pkts k := by simpa using hl.start_eq hk
    have hbefore : pk.start < pos := by
      rw [hstart, hpos]
      exact startAt_lt (by omega) hb
    exact hphase (hsettled.before pk (mem_of_getElem? hk) hbefore).2
  rw [take_set_of_le hbk]

/-- Reading the packet at the position adds it to what was read. -/
theorem next (hl : Layout 0 pkts w) {pk : Packet} (hpk : pk ∈ pkts) (hstart : pk.start = pos) :
    DeliveredUpTo pkts origin pk.stop (got ++ [pk.content]) := by
  obtain ⟨a, b, hab, hb, horigin, hpos, hgot⟩ := h
  obtain ⟨n, hn⟩ := mem_iff_getElem?.mp hpk
  obtain ⟨hn', -⟩ := List.getElem?_eq_some_iff.mp hn
  have hstart' : pk.start = startAt pkts n := by simpa using hl.start_eq hn
  have hnb : n = b := by
    rcases Nat.lt_trichotomy n b with hlt | heq | hgt
    · have := startAt_lt hlt hb
      omega
    · exact heq
    · have := startAt_lt hgt hn'.le
      omega
  subst hnb
  refine ⟨a, n + 1, by omega, hn', horigin, ?_, ?_⟩
  · rw [startAt_succ hn, ← hstart', Packet.stop]
  · rw [take_add_one, hn, hgot, drop_append_of_le_length (by simp; omega)]
    simp

end

end DeliveredUpTo

/-- The operations of the producers and of the references that read what they pass; moving the
data-keep reference is not among them. -/
def Op.delivers : Op → Bool
  | .takeNewPread _ | .keepBegin _ _ | .keepSample | .keepAdvance | .keepEnd => false
  | _ => true

/-- Every live reference has read exactly the packets it has passed. -/
def Delivered (s : Sys) : Prop :=
  ∀ i, s.rb.occupied i → DeliveredUpTo s.pkts (s.origin i) (s.rb.slot i).pread (s.got i)

namespace Delivered

variable {s t : Sys}

theorem setPacket {rb : Ringbuf} {k : Nat} {pk pk' : Packet} (h : Delivered s) (hi : Inv s)
    (hk : s.pkts[k]? = some pk) (hphase : pk.phase ≠ .published)
    (hocc : rb.occupied = s.rb.occupied) (hslot : rb.slot = s.rb.slot) :
    Delivered { s with rb := rb, pkts := s.pkts.set k pk' } := by
  intro i hoc
  rw [hslot]
  have hoc' : s.rb.occupied i := hocc ▸ hoc
  exact (h i hoc').set hi.layout (hi.slots i hoc').2 hk hphase pk'

theorem freeSlot {refs : List Ref} {polled : Nat → Bool} {updater : Updater} (h : Delivered s)
    (i : Nat) :
    Delivered { s with
      rb := s.rb.freeSlot i, refs := refs, polled := polled, updater := updater } := by
  intro j hj
  rcases eq_or_ne j i with rfl | hne
  · simp [Ringbuf.freeSlot] at hj
  · have hslot : (s.rb.freeSlot i).slot j = s.rb.slot j := by simp [Ringbuf.freeSlot, hne]
    change DeliveredUpTo s.pkts (s.origin j) ((s.rb.freeSlot i).slot j).pread (s.got j)
    rw [hslot]
    exact h j (by simpa [Ringbuf.freeSlot, hne] using hj)

theorem newRef {strong : Bool} {ref : Ref} {rb : Ringbuf} (h : Delivered s) (hi : Inv s)
    (hnew : s.rb.newRef strong = some (ref, rb)) :
    Delivered { s with
      rb := rb
      refs := ref :: s.refs
      polled := s.forget ref.slot
      origin := update s.origin ref.slot s.rb.pread
      got := update s.got ref.slot [] } := by
  simp only [Ringbuf.newRef] at hnew
  split at hnew
  · cases hnew
  next i hfind =>
    obtain ⟨rfl, rfl⟩ : _ ∧ _ := by simpa using hnew
    intro j hj
    rcases eq_or_ne j i with rfl | hne
    · simpa using DeliveredUpTo.start hi.layout hi.pread_settled
    · simpa [hne] using h j (by simpa [hne] using hj)

theorem updateRef {ref : Ref} (h : Delivered s) (hi : Inv s) (hlive : s.live ref)
    (hpoll : s.polled ref.slot) :
    Delivered { s with
      rb := s.rb.updateRef ref
      polled := s.forget ref.slot
      got := update s.got ref.slot (s.got ref.slot ++ [s.rb.nextPkt ref]) } := by
  have hocc := hi.occupied_of_live hlive
  obtain ⟨pk, hpk, hstart, hpub⟩ := hi.polled _ hocc hpoll
  have hbase : s.base ≤ pk.start := hstart ▸ (hi.slots _ hocc).1
  have hnext : s.rb.nextPkt ref = pk.content := by
    have hread := hi.readNextPkt_eq hpk hstart hbase hpub 0 pk.len.toNat
    simp only [Ringbuf.nextPkt, hi.nextPktType_eq hpk hstart hbase hpub, hread, Packet.content]
    have hlen : pk.bytes.length = pk.len.toNat := Ring.length_slice _ _ _
    split
    · next hzero =>
      rw [eq_nil_of_length_eq_zero (show pk.bytes.length = 0 by omega)]
      rfl
    · rw [drop_zero, take_of_length_le hlen.le]
      rfl
  intro j hj
  rcases eq_or_ne j ref.slot with rfl | hne
  · rw [(hi.updateRef hocc hpk hstart hpub).1]
    simpa [hnext] using (h ref.slot hocc).next hi.layout hpk hstart
  · simpa [Ringbuf.updateRef, hne] using h j hj

theorem setStrong {i : Nat} {strong : Bool} (h : Delivered s) :
    Delivered { s with
      rb := { s.rb with
        slot := update s.rb.slot i { s.rb.slot i with strong := strong } } } := by
  intro j hj
  rcases eq_or_ne j i with rfl | hne
  · simpa using h j hj
  · simpa [hne] using h j hj

/-- Every step keeps what is delivered. -/
theorem step {op : Op} (h : Delivered s) (hi : Inv s) (hop : op.delivers)
    (hstep : s.step op = some t) : Delivered t := by
  cases op with
  | reserve len =>
    cases hstep
    exact fun i hoc => (h i hoc).append _
  | waitForSpace k | setPktFlag k flag =>
    obtain ⟨pk, hk, hphase, hstep⟩ := s.onPacket_eq_some hstep
    obtain ⟨-, ⟨⟩⟩ := ite_none_right_eq_some.mp hstep
    exact h.setPacket hi hk (by simp [hphase]) rfl rfl
  | setPktLength k =>
    obtain ⟨pk, hk, hphase, ⟨⟩⟩ := s.onPacket_eq_some hstep
    exact h.setPacket hi hk (by simp [hphase]) rfl rfl
  | pktWrite k offset buf =>
    obtain ⟨pk, hk, hphase, rfl | ⟨rb, hwrite, rfl⟩⟩ := s.step_pktWrite hstep
    · exact h
    · obtain ⟨data, rfl⟩ := s.rb.pktWrite_eq_some hwrite
      exact h.setPacket hi hk (by simp [hphase]) rfl rfl
  | newRef strong =>
    obtain ⟨-, rfl | ⟨ref, rb, hnew, rfl⟩⟩ := s.step_newRef hstep
    · exact h
    · exact h.newRef hi hnew
  | setRefStrong ref strong =>
    obtain ⟨-, ⟨⟩⟩ := ite_none_right_eq_some.mp hstep
    unfold Ringbuf.setRefStrongProperty
    split
    · exact h.setStrong
    · exact h
  | nextPktType ref =>
    obtain ⟨-, ⟨⟩⟩ := ite_none_right_eq_some.mp hstep
    exact h
  | updateRef ref =>
    obtain ⟨⟨hlive, -, hpoll⟩, ⟨⟩⟩ := ite_none_right_eq_some.mp hstep
    exact h.updateRef hi hlive hpoll
  | releaseRef ref =>
    obtain ⟨-, ⟨⟩⟩ := ite_none_right_eq_some.mp hstep
    exact h.freeSlot ref.slot
  | evictRef =>
    obtain ⟨-, rfl | ⟨i, rfl⟩⟩ := s.step_evictRef hstep
    · exact h
    · exact h.freeSlot i
  | updateBegin | updateScan | updateClear | updatePublish =>
    obtain ⟨data, pread, updater, rfl⟩ := s.update_frame rfl hstep
    exact h
  | takeNewPread _ | keepBegin _ _ | keepSample | keepAdvance | keepEnd => cases hop

end Delivered

theorem Op.keepsToPublished_of_delivers {s : Sys} {op : Op} (h : op.delivers) :
    s.keepsToPublished op := by
  cases op <;> trivial

/-- In every run of producers and references, a live reference that is told of a packet stands on
the start of a reserved packet whose own producer has published it; it reads exactly the bytes of
that producer and moves on to the packet's end. The packets it has still to read are all in place,
and those it has read are the reserved ones in order, each once. -/
theorem delivery_exact {size refNum : Nat} (hsize : 0 < size) {s : Sys}
    (run : Reaches Sys.step (fun _ op => op.delivers) (Sys.init size refNum) s) {ref : Ref}
    (hlive : s.live ref) :
    ((s.rb.nextPktType ref).1 ≠ pktInvalidType →
      ∃ pk ∈ s.pkts, pk.start = (s.rb.slot ref.slot).pread ∧ pk.phase = .published ∧
        s.rb.nextPktType ref = (pk.flag &&& pktTypeMask, pk.len.toNat) ∧
        (∀ offset len, s.rb.readNextPkt ref offset len =
          if offset ≥ pk.len.toNat then none else some ((pk.bytes.drop offset).take len)) ∧
        ((s.rb.updateRef ref).slot ref.slot).pread = pk.stop) ∧
      (∀ pk ∈ s.pkts, pk.phase = .published → (s.rb.slot ref.slot).pread ≤ pk.start →
        ∀ off < pktSize pk.len.toNat, s.rb.data (s.rb.idx (pk.start + off)) = pk.byte off) ∧
      DeliveredUpTo s.pkts (s.origin ref.slot) (s.rb.slot ref.slot).pread (s.got ref.slot) := by
  obtain ⟨hi, hd⟩ : Inv s ∧ Delivered s := by
    refine run.invariant (fun s => Inv s ∧ Delivered s) ⟨Inv.init hsize refNum, ?_⟩ ?_
    · rintro i ⟨⟩
    · intro u op v ⟨hi, hd⟩ hop hstep
      exact ⟨hi.step (Op.keepsToPublished_of_delivers hop) hstep, hd.step hi hop hstep⟩
  have hocc := hi.occupied_of_live hlive
  obtain ⟨hbase, -⟩ := hi.slots _ hocc
  refine ⟨fun htype => ?_, fun pk hpk hpub hle off hoff => ?_, hd _ hocc⟩
  · have hready : s.rb.data (s.rb.idx (s.rb.slot ref.slot).pread) &&& pktStateMask = pktReady := by
      by_contra hready
      simp [Ringbuf.nextPktType, hready] at htype
    obtain ⟨pk, hpk, hstart, hpub⟩ := hi.exists_packet_of_ready hocc hready
    have hbase' : s.base ≤ pk.start := hstart ▸ hbase
    exact ⟨pk, hpk, hstart, hpub, hi.nextPktType_eq hpk hstart hbase' hpub,
      hi.readNextPkt_eq hpk hstart hbase' hpub, (hi.updateRef hocc hpk hstart hpub).1⟩
  · have hstop := hi.stop_le_window hpk (by simp [hpub])
    have hlt : pk.start + off < pk.stop := Nat.add_lt_add_left hoff _
    rw [hi.data_eq_tape (by omega) (by omega), tape_eq_byte hi.layout hpk (by omega) hlt,
      Nat.add_sub_cancel_left]

/-- A packet of two bytes, from its reservation to its publication. -/
def publish (k : Nat) (a b : UInt8) : List Op :=
  [.reserve 2, .waitForSpace k, .setPktLength k, .pktWrite k 0 [a, b],
    .setPktFlag k (pktWalMeta ||| pktReady)]

/-- Two packets are read and freed, and a third one lies across the end of the area. -/
def wrappedDelivery : List Op :=
  .newRef true :: publish 0 7 9 ++ publish 1 8 1 ++
    [.nextPktType ⟨1, 0, true⟩, .updateRef ⟨1, 0, true⟩, .nextPktType ⟨1, 0, true⟩,
      .updateRef ⟨1, 0, true⟩, .updateBegin, .updateScan, .updateClear, .updatePublish] ++
    publish 2 5 6

/-- A reference that has read two of three packets stands before the wrapped one. -/
theorem delivery_exact_wrapped :
    ∃ s : Sys, s.rb.size = 16 ∧ s.rb.pwrite = 21 ∧
      s.got 0 = [(pktWalMeta, [7, 9]), (pktWalMeta, [8, 1])] ∧
      s.rb.readNextPkt ⟨1, 0, true⟩ 0 2 = some [5, 6] ∧
      (∃ pk ∈ s.pkts, pk.start = 14 ∧ ((s.rb.updateRef ⟨1, 0, true⟩).slot 0).pread = pk.stop) ∧
      DeliveredUpTo s.pkts (s.origin 0) 14 (s.got 0) := by
  obtain ⟨s, hrun, hlive, htype, hpread, hsize, hpwrite, hgot, hread⟩ := exists_reaches_tested
    Sys.step (fun _ op => op.delivers) (Sys.init 16 0) wrappedDelivery
    (fun s => s.live ⟨1, 0, true⟩ = true ∧ (s.rb.nextPktType ⟨1, 0, true⟩).1 ≠ pktInvalidType ∧
      (s.rb.slot 0).pread = 14 ∧ s.rb.size = 16 ∧ s.rb.pwrite = 21 ∧
      s.got 0 = [(pktWalMeta, [7, 9]), (pktWalMeta, [8, 1])] ∧
      s.rb.readNextPkt ⟨1, 0, true⟩ 0 2 = some [5, 6]) (by decide +kernel)
  obtain ⟨hnext, -, hdelivered⟩ := delivery_exact (by decide) hrun hlive
  obtain ⟨pk, hpk, hstart, -, -, -, hstop⟩ := hnext htype
  rw [hpread] at hstart hdelivered
  exact ⟨s, hsize, hpwrite, hgot, hread, ⟨pk, hpk, hstart, hstop⟩, hdelivered⟩

end Polar.Ringbuf
