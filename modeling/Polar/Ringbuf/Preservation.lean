import Polar.Ringbuf.Invariant

/-!
# Every action keeps the invariant

Producers change one packet and the bytes of its own region, references move forward over
published packets, and the updater clears what all of them have passed before it lets the read
position follow. The only action that needs a side condition is the reading of `pwrite` in
`polar_ringbuf_ref_keep_data`.
-/

namespace Polar.Ringbuf

open Option (ite_none_right_eq_some)

open List Function

namespace Inv

variable {s : Sys} {k : Nat} {pk pk' : Packet}

/-! ### Producers -/

/-- A producer changes its own packet, and the area in step with the tape. -/
theorem setPacket {data : Nat → UInt8} (h : Inv s) (hk : s.pkts[k]? = some pk)
    (hphase : pk.phase ≠ .published) (hstart : pk'.start = pk.start) (hlen : pk'.len = pk.len)
    (hgranted : pk'.phase ≠ .claimed → pk'.stop ≤ s.rb.pread + (s.rb.size - 1))
    (hfresh : pk'.phase = .claimed ∨ pk'.phase = .granted → ∀ i, pk'.payload i = pktFree)
    (hready : pk'.phase = .published → pk'.flag &&& pktStateMask = pktReady)
    (hmirror : Ring.Mirrors s.rb.size data (tape (s.pkts.set k pk')) s.base
      (s.base + s.rb.size)) :
    Inv { s with rb := { s.rb with data := data }, pkts := s.pkts.set k pk' } := by
  have hcases {p : Packet → Prop} (hp : ∀ q ∈ s.pkts, p q) (hp' : p pk') :
      ∀ q ∈ s.pkts.set k pk', p q := by
    intro q hq
    rcases mem_or_eq_of_mem_set hq with hmem | rfl
    · exact hp q hmem
    · exact hp'
  refine { h with
    layout := h.layout.set hk hstart hlen
    granted := hcases h.granted hgranted
    fresh := hcases h.fresh hfresh
    ready := hcases h.ready hready
    mirror := hmirror
    pread_settled := h.pread_settled.set hk hstart hphase
    base_settled := h.base_settled.set hk hstart hphase
    slots := fun i hi => ⟨(h.slots i hi).1, (h.slots i hi).2.set hk hstart hphase⟩
    polled := fun i hi hpoll => ?_
    scan_min := fun todo m hm => ⟨(h.scan_min todo m hm).1,
      (h.scan_min todo m hm).2.set hk hstart hphase⟩
    newPread := h.newPread.set hk hstart hphase
    keeper := fun kp hkp w hw => ?_ }
  · obtain ⟨q, hq, hqstart, hqpub⟩ := h.polled i hi hpoll
    refine ⟨q, mem_set_of_ne hk hq ?_, hqstart, hqpub⟩
    rintro rfl
    exact hphase hqpub
  · obtain ⟨hle, hunpub⟩ := h.keeper kp hkp w hw
    exact ⟨hle, hcases hunpub fun _ => hstart ▸ hunpub pk (mem_of_getElem? hk) hphase⟩

/-- A producer reserves a packet. -/
theorem reserve (h : Inv s) (len : UInt32) :
    Inv { s with
      rb := { s.rb with pwrite := s.rb.pwrite + pktSize len.toNat }
      pkts := s.pkts ++ [Packet.claim s.rb.pwrite len] } := by
  have hcases {p : Packet → Prop} (hp : ∀ q ∈ s.pkts, p q) (hp' : p (.claim s.rb.pwrite len)) :
      ∀ q ∈ s.pkts ++ [Packet.claim s.rb.pwrite len], p q :=
    forall_mem_append.mpr ⟨hp, forall_mem_singleton.mpr hp'⟩
  refine { h with
    layout := h.layout.append_claim len
    granted := hcases h.granted fun hphase => absurd rfl hphase
    fresh := hcases h.fresh fun _ _ => rfl
    ready := hcases h.ready fun hphase => absurd hphase (by simp [Packet.claim])
    mirror := ?_
    pread_settled := h.pread_settled.append_claim len
    base_settled := h.base_settled.append_claim len
    slots := fun i hi => ⟨(h.slots i hi).1, (h.slots i hi).2.append_claim len⟩
    polled := fun i hi hpoll => ?_
    scan_min := fun todo m hm => ⟨(h.scan_min todo m hm).1,
      (h.scan_min todo m hm).2.append_claim len⟩
    newPread := h.newPread.append_claim len
    keeper := fun kp hkp w hw => ?_ }
  · rw [tape_append_claim h.layout len]
    exact h.mirror
  · obtain ⟨q, hq, hqpub⟩ := h.polled i hi hpoll
    exact ⟨q, mem_append_left _ hq, hqpub⟩
  · obtain ⟨hle, hunpub⟩ := h.keeper kp hkp w hw
    have hle' := Nat.le_add_right_of_le (k := pktSize len.toNat) hle
    exact ⟨hle', hcases hunpub fun _ => Nat.le_add_right_of_le hle⟩

/-- A producer whose region has become free may start to write. -/
theorem waitForSpace (h : Inv s) (hk : s.pkts[k]? = some pk) (hphase : pk.phase = .claimed)
    (hspace : s.rb.spaceFor pk.start (pktSize pk.len.toNat)) :
    Inv { s with pkts := s.pkts.set k pk.grant } := by
  have hmem := mem_of_getElem? hk
  refine h.setPacket hk (by simp [hphase]) pk.grant_start pk.grant_len (fun _ => ?_)
    (fun _ => h.fresh pk hmem (Or.inl hphase)) nofun ?_
  · have hsize := h.size_pos
    simp only [Ringbuf.spaceFor, decide_eq_true_eq] at hspace
    change pk.start + pktSize pk.len.toNat ≤ _
    omega
  · have htape : tape (s.pkts.set k pk.grant) = tape s.pkts := by
      funext p
      by_cases hin : pk.start ≤ p ∧ p < pk.stop
      · rw [tape_set_of_inside h.layout hk pk.grant_start pk.grant_len hin.1 hin.2,
          tape_eq_byte h.layout hmem hin.1 hin.2]
        simp only [Packet.byte, Packet.grant, hphase]
      · exact tape_set_of_outside h.layout hk pk.grant_start pk.grant_len (by omega)
    rw [htape]
    exact h.mirror

/-- A producer writes the length of its packet. -/
theorem setPktLength (h : Inv s) (hk : s.pkts[k]? = some pk) (hphase : pk.phase = .granted) :
    Inv { s with
      rb := s.rb.setPktLength pk.start pk.len
      pkts := s.pkts.set k pk.setLength } := by
  have hmem := mem_of_getElem? hk
  have hbase := h.base_le_start hmem (by simp [hphase])
  have hstop := h.stop_le_window hmem (by simp [hphase])
  have hfresh := h.fresh pk hmem (Or.inr hphase)
  have hlen : pk.start + 5 ≤ pk.stop := by
    simp only [Packet.stop, pktSize, pktHdrSize]
    omega
  refine h.setPacket hk (by simp [hphase]) pk.setLength_start pk.setLength_len
    (fun _ => h.granted pk hmem (by simp [hphase])) (by simp [Packet.setLength])
    (by simp [Packet.setLength]) ?_
  have hold (p : Nat) (hp : pk.start ≤ p) (hp' : p < pk.stop) : tape s.pkts p = pktFree := by
    rw [tape_eq_byte h.layout hmem hp hp']
    simp only [Packet.byte, hphase]
  refine h.mirror.write h.size_pos le_rfl (by omega) ?_ ?_ ?_
  · rw [Bytes.length_ofNat]
    omega
  · intro p hp hp'
    rw [Bytes.length_ofNat] at hp'
    have hhdr : p - pk.start < pktHdrSize := by
      simp only [pktHdrSize]
      omega
    rw [tape_set_of_inside h.layout hk pk.setLength_start pk.setLength_len (by omega) (by omega),
      hold p (by omega) (by omega)]
    simp [Packet.byte, Packet.setLength, hhdr, show p - pk.start ≠ 0 by omega, Nat.sub_sub]
  · intro p hp
    rw [Bytes.length_ofNat] at hp
    by_cases hin : pk.start ≤ p ∧ p < pk.stop
    · rw [tape_set_of_inside h.layout hk pk.setLength_start pk.setLength_len hin.1 hin.2,
        hold p hin.1 hin.2]
      rcases Nat.eq_or_lt_of_le hin.1 with heq | hlt
      · simp [Packet.byte, Packet.setLength, heq]
      · have hhdr : ¬ p - pk.start < pktHdrSize := by
          simp only [pktHdrSize]
          omega
        simp [Packet.byte, Packet.setLength, hhdr, hfresh]
    · exact tape_set_of_outside h.layout hk pk.setLength_start pk.setLength_len (by omega)

/-- Storing packet data; a call outside the packet stores nothing. -/
theorem pktWrite (h : Inv s) (hk : s.pkts[k]? = some pk) (hphase : pk.phase = .sized)
    {offset : Nat} {buf : List UInt8} {rb : Ringbuf}
    (hwrite : s.rb.pktWrite pk.start offset buf = some rb) :
    Inv { s with rb := rb, pkts := s.pkts.set k (pk.wrote offset buf) } := by
  have hmem := mem_of_getElem? hk
  have hbase := h.base_le_start hmem (by simp [hphase])
  have hstop := h.stop_le_window hmem (by simp [hphase])
  simp only [Ringbuf.pktWrite, h.getPktLength_eq hmem hbase (Or.inl hphase)] at hwrite
  split at hwrite
  · cases hwrite
  next hfit =>
    obtain rfl := Option.some.inj hwrite
    have hle : pk.start + pktHdrSize + offset + buf.length ≤ pk.stop := by
      simp only [Packet.stop, pktSize]
      omega
    refine h.setPacket hk (by simp [hphase]) (pk.wrote_start _ _) (pk.wrote_len _ _)
      (fun _ => h.granted pk hmem (by simp [hphase])) (by simp [Packet.wrote, hphase])
      (by simp [Packet.wrote, hphase]) ?_
    refine h.mirror.write h.size_pos le_rfl (by omega) (by omega) ?_ ?_
    · intro p hp hp'
      have hoff : p - pk.start = pktHdrSize + (offset + (p - (pk.start + pktHdrSize + offset))) := by
        omega
      have hphase' : (pk.wrote offset buf).phase = .sized := hphase
      rw [tape_set_of_inside h.layout hk (pk.wrote_start _ _) (pk.wrote_len _ _) (by omega)
        (by omega), tape_eq_byte h.layout hmem (by omega) (by omega), hoff,
        Packet.byte_hdr_add (Or.inl hphase'), Packet.byte_hdr_add (Or.inl hphase)]
      simp [Packet.wrote, Ring.splice]
    · intro p hp
      by_cases hin : pk.start ≤ p ∧ p < pk.stop
      · rw [tape_set_of_inside h.layout hk (pk.wrote_start _ _) (pk.wrote_len _ _) hin.1 hin.2,
          tape_eq_byte h.layout hmem hin.1 hin.2]
        have hsplice : p - pk.start < pktHdrSize ∨
            Ring.splice pk.payload offset buf (p - pk.start - pktHdrSize) =
              pk.payload (p - pk.start - pktHdrSize) := by
          by_cases hhdr : p - pk.start < pktHdrSize
          · exact Or.inl hhdr
          · right
            rcases hp with hlt | hge
            · exact if_neg (by omega)
            · rw [Ring.splice, List.getElem?_eq_none (by omega), Option.getD_none, ite_self]
        simp only [Packet.byte, Packet.wrote, hphase]
        rcases hsplice with hhdr | heq
        · simp [hhdr]
        · rw [heq]
      · exact tape_set_of_outside h.layout hk (pk.wrote_start _ _) (pk.wrote_len _ _) (by omega)

/-- Setting the packet flag publishes the packet. -/
theorem setPktFlag (h : Inv s) (hk : s.pkts[k]? = some pk) (hphase : pk.phase = .sized)
    {flag : UInt8} (hflag : flag &&& pktStateMask = pktReady) :
    Inv { s with
      rb := s.rb.setPktFlag pk.start flag
      pkts := s.pkts.set k (pk.publish flag) } := by
  have hmem := mem_of_getElem? hk
  have hbase := h.base_le_start hmem (by simp [hphase])
  have hstop := h.stop_le_window hmem (by simp [hphase])
  have hlt := pk.start_lt_stop
  refine h.setPacket hk (by simp [hphase]) (pk.publish_start _) (pk.publish_len _)
    (fun _ => h.granted pk hmem (by simp [hphase])) (by simp [Packet.publish])
    (fun _ => hflag) ?_
  refine h.mirror.update h.size_pos le_rfl hbase (by omega) ?_ ?_
  · rw [tape_set_of_inside h.layout hk (pk.publish_start _) (pk.publish_len _) le_rfl hlt]
    simp [Packet.byte, Packet.publish]
  · intro p hne
    by_cases hin : pk.start ≤ p ∧ p < pk.stop
    · rw [tape_set_of_inside h.layout hk (pk.publish_start _) (pk.publish_len _) hin.1 hin.2,
        tape_eq_byte h.layout hmem hin.1 hin.2]
      simp [Packet.byte, Packet.publish, hphase, show p - pk.start ≠ 0 by omega]
    · exact tape_set_of_outside h.layout hk (pk.publish_start _) (pk.publish_len _) (by omega)

/-! ### References -/

/-- References may move forward to settled positions. -/
theorem withSlots {slot : Nat → Slot} {polled : Nat → Bool} (h : Inv s)
    (hle : ∀ j, (s.rb.slot j).pread ≤ (slot j).pread)
    (hsettled : ∀ j, s.rb.occupied j → s.settled (slot j).pread)
    (hnum : ∀ j, (slot j).refNum = (s.rb.slot j).refNum)
    (hpolled : ∀ j, polled j → s.polled j ∧ (slot j).pread = (s.rb.slot j).pread) :
    Inv { s with rb := { s.rb with slot := slot }, polled := polled } :=
  { h with
    slots := fun j hj => ⟨(h.slots j hj).1.trans (hle j), hsettled j hj⟩
    vacant := fun j hj => (hnum j).trans (h.vacant j hj)
    polled := fun j hj hpoll => by
      obtain ⟨hold, hpread⟩ := hpolled j hpoll
      rw [hpread]
      exact h.polled j hj hold
    scanned := fun todo min hupd j hj => by
      rcases h.scanned todo min hupd j hj with htodo | ⟨m, hmin, hm⟩
      · exact Or.inl htodo
      · exact Or.inr ⟨m, hmin, hm.trans (hle j)⟩ }

theorem moveSlot {i q : Nat} (h : Inv s) (hle : (s.rb.slot i).pread ≤ q) (hq : s.settled q) :
    Inv { s with
      rb := { s.rb with slot := update s.rb.slot i { s.rb.slot i with pread := q } }
      polled := s.forget i } := by
  refine h.withSlots (fun j => ?_) (fun j hj => ?_) (fun j => ?_) (fun j hpoll => ?_) <;>
    rcases eq_or_ne j i with rfl | hne
  · simpa using hle
  · simp [hne]
  · simpa using hq
  · simpa [hne] using (h.slots j hj).2
  · simp
  · simp [hne]
  · simp [Sys.forget] at hpoll
  · simpa [Sys.forget, hne] using hpoll

/-- Moving over the published packet at its position takes a reference to the next packet. -/
theorem updateRef {ref : Ref} (h : Inv s) (hocc : s.rb.occupied ref.slot) (hpk : pk ∈ s.pkts)
    (hstart : pk.start = (s.rb.slot ref.slot).pread) (hpub : pk.phase = .published) :
    (((s.rb.updateRef ref).slot ref.slot).pread = pk.stop) ∧
      Inv { s with rb := s.rb.updateRef ref, polled := s.forget ref.slot } := by
  obtain ⟨hbase, hsettled⟩ := h.slots ref.slot hocc
  have hlen := h.getPktLength_eq hpk (hstart ▸ hbase) (Or.inr hpub)
  have hnext : (s.rb.slot ref.slot).pread +
      (pktHdrSize + s.rb.getPktLength (s.rb.slot ref.slot).pread) = pk.stop := by
    rw [← hstart, hlen, Packet.stop, pktSize, add_comm pktHdrSize]
  constructor
  · simpa [Ringbuf.updateRef] using hnext
  · have hmove := h.moveSlot (hstart ▸ pk.start_lt_stop.le)
      (hsettled.stop_of_published h.layout hpk hstart hpub)
    simpa only [Ringbuf.updateRef, hnext] using hmove

/-- Changing the strength of a reference concerns nobody else. -/
theorem setStrong {i : Nat} {strong : Bool} (h : Inv s) :
    Inv { s with
      rb := { s.rb with
        slot := update s.rb.slot i { s.rb.slot i with strong := strong } } } := by
  refine h.withSlots (fun j => ?_) (fun j hj => ?_) (fun j => ?_) (fun j hpoll => ?_) <;>
    rcases eq_or_ne j i with rfl | hne
  · simp
  · simp [hne]
  · simpa using (h.slots j hj).2
  · simpa [hne] using (h.slots j hj).2
  · simp
  · simp [hne]
  · simpa using hpoll
  · simpa [hne] using hpoll

/-- A new reference starts at the ring buffer's own read position. -/
theorem newRef {strong : Bool} {ref : Ref} {rb : Ringbuf} (h : Inv s) (hidle : s.updater = .idle)
    (hnew : s.rb.newRef strong = some (ref, rb)) :
    Inv { s with rb := rb, refs := ref :: s.refs, polled := s.forget ref.slot } := by
  simp only [Ringbuf.newRef] at hnew
  split at hnew
  · cases hnew
  next i hfind =>
    obtain ⟨rfl, rfl⟩ : _ ∧ _ := by simpa using hnew
    have hlt : i < maxSlot := mem_range.mp (mem_of_find?_eq_some hfind)
    have hbase : s.base = s.rb.pread := by simp only [Sys.base, hidle]
    have hsettled := h.base_settled
    exact
      { h with
        slots := fun j hj => by
          change s.base ≤ (update s.rb.slot i _ j).pread ∧ s.settled _
          rcases eq_or_ne j i with rfl | hne
          · simpa [hbase] using hsettled
          · simpa [hne] using h.slots j (by simpa [hne] using hj)
        occupied_lt := fun j hj => by
          rcases eq_or_ne j i with rfl | hne
          · exact hlt
          · exact h.occupied_lt j (by simpa [hne] using hj)
        vacant := fun j hj => by
          rcases eq_or_ne j i with rfl | hne
          · simp at hj
          · simpa [hne] using h.vacant j (by simpa [hne] using hj)
        numbered := fun r hr => by
          rcases mem_cons.mp hr with rfl | hmem
          · exact Nat.succ_pos _
          · exact h.numbered r hmem
        polled := fun j hj hpoll => by
          rcases eq_or_ne j i with rfl | hne
          · simp [Sys.forget] at hpoll
          · simpa [hne] using h.polled j (by simpa [hne] using hj)
              (by simpa [Sys.forget, hne] using hpoll)
        scanned := fun todo min hupd => by
          rw [hidle] at hupd
          cases hupd
        scan_occupied := fun todo min hupd => by
          rw [hidle] at hupd
          cases hupd }

/-- Freeing a slot takes its reference out of every condition. -/
theorem freeSlot {refs : List Ref} {polled : Nat → Bool} (h : Inv s)
    (hidle : s.updater = .idle) (i : Nat) (hrefs : ∀ ref ∈ refs, ref ∈ s.refs)
    (hpolled : ∀ j, polled j → s.polled j) :
    Inv { s with rb := s.rb.freeSlot i, refs := refs, polled := polled } := by
  have hocc (j : Nat) (hj : (s.rb.freeSlot i).occupied j) : j ≠ i ∧ s.rb.occupied j := by
    rcases eq_or_ne j i with rfl | hne
    · simp [Ringbuf.freeSlot] at hj
    · exact ⟨hne, by simpa [Ringbuf.freeSlot, hne] using hj⟩
  have hslot (j : Nat) (hne : j ≠ i) : (s.rb.freeSlot i).slot j = s.rb.slot j := by
    simp [Ringbuf.freeSlot, hne]
  exact
    { h with
      slots := fun j hj => by
        rw [hslot j (hocc j hj).1]
        exact h.slots j (hocc j hj).2
      occupied_lt := fun j hj => h.occupied_lt j (hocc j hj).2
      vacant := fun j hj => by
        rcases eq_or_ne j i with rfl | hne
        · simp [Ringbuf.freeSlot, Slot.zero]
        · rw [hslot j hne]
          exact h.vacant j (by simpa [Ringbuf.freeSlot, hne] using hj)
      numbered := fun ref hmem => h.numbered ref (hrefs ref hmem)
      polled := fun j hj hpoll => by
        rw [hslot j (hocc j hj).1]
        exact h.polled j (hocc j hj).2 (hpolled j hpoll)
      scanned := fun todo min hupd => by
        rw [hidle] at hupd
        cases hupd
      scan_occupied := fun todo min hupd => by
        rw [hidle] at hupd
        cases hupd }

/-- What a reference has seen at its position is a published packet. -/
theorem poll {ref : Ref} (h : Inv s) :
    Inv { s with
      polled := update s.polled ref.slot
        ((s.rb.nextPktType ref).1 != pktInvalidType) } :=
  { h with
    polled := fun j hj hpoll => by
      rcases eq_or_ne j ref.slot with rfl | hne
      · refine h.exists_packet_of_ready hj ?_
        by_contra hready
        simp [Ringbuf.nextPktType, hready] at hpoll
      · exact h.polled j hj (by simpa [hne] using hpoll) }

/-! ### The updater -/

/-- The lock holder may move on while the window stays where it is. -/
theorem withUpdater {updater : Updater} (h : Inv s)
    (hbase : Sys.base { s with updater := updater } = s.base)
    (hscanned : ∀ todo min, updater = .scan todo min →
      ∀ i, s.rb.occupied i → i ∈ todo ∨ ∃ m, min = some m ∧ m ≤ (s.rb.slot i).pread)
    (hocc : ∀ todo min, updater = .scan todo min → ∀ i ∈ todo, s.rb.occupied i)
    (hmin : ∀ todo m, updater = .scan todo (some m) → s.rb.pread ≤ m ∧ s.settled m) :
    Inv { s with updater := updater } :=
  { h with
    mirror := hbase ▸ h.mirror
    pread_le_base := hbase ▸ h.pread_le_base
    base_settled := hbase ▸ h.base_settled
    slots := hbase ▸ h.slots
    scanned := hscanned
    scan_occupied := hocc
    scan_min := hmin }

theorem updateBegin (h : Inv s) (hidle : s.updater = .idle) :
    Inv { s with updater := .scan s.rb.occupiedSlots none } := by
  refine h.withUpdater (by simp only [Sys.base, hidle]) ?_ ?_ ?_
  · intro todo min hupd j hj
    cases hupd
    exact Or.inl (mem_filter.mpr ⟨mem_range.mpr (h.occupied_lt j hj), hj⟩)
  · intro todo min hupd i hi
    cases hupd
    exact (mem_filter.mp hi).2
  · rintro todo m ⟨⟩

/-- One turn of the scan. Slots read earlier may have moved on since, but only forward. -/
theorem updateScan {i : Nat} {todo : List Nat} {min : Option Nat} (h : Inv s)
    (hupd : s.updater = .scan (i :: todo) min) :
    Inv { s with updater := .scan todo (s.rb.scanSlot min i) } := by
  have hbase : s.base = s.rb.pread := by simp only [Sys.base, hupd]
  have hslot := h.slots i (h.scan_occupied _ _ hupd i mem_cons_self)
  rw [hbase] at hslot
  refine h.withUpdater (by simp only [Sys.base, hupd]) ?_ ?_ ?_
  · intro todo' min' heq j hj
    obtain ⟨rfl, rfl⟩ : todo = todo' ∧ s.rb.scanSlot min i = min' := by simpa using heq
    rcases h.scanned _ _ hupd j hj with hmem | ⟨m, rfl, hm⟩
    · rcases mem_cons.mp hmem with rfl | hmem
      · obtain ⟨m, hm, hle, -⟩ := s.rb.scanSlot_spec min j
        exact Or.inr ⟨m, hm, hle⟩
      · exact Or.inl hmem
    · obtain ⟨m', hm', -, hle⟩ := s.rb.scanSlot_spec (some m) i
      exact Or.inr ⟨m', hm', (hle m rfl).trans hm⟩
  · intro todo' min' heq j hj
    obtain ⟨rfl, -⟩ : todo = todo' ∧ s.rb.scanSlot min i = min' := by simpa using heq
    exact h.scan_occupied _ _ hupd j (mem_cons_of_mem _ hj)
  · intro todo' m heq
    obtain ⟨rfl, hmin⟩ : todo = todo' ∧ s.rb.scanSlot min i = some m := by simpa using heq
    rcases s.rb.scanSlot_cases hmin with rfl | rfl
    · exact hslot
    · exact h.scan_min _ _ hupd

/-- The scan may end without any change of the read position. -/
theorem updateDone {todo : List Nat} {min : Option Nat} (h : Inv s)
    (hupd : s.updater = .scan todo min) : Inv { s with updater := .idle } := by
  refine h.withUpdater (by simp only [Sys.base, hupd]) ?_ ?_ ?_ <;>
    · rintro _ _ ⟨⟩

/-- Clearing what every reference has passed moves the window to the least position found. -/
theorem updateClear {m : Nat} (h : Inv s) (hupd : s.updater = .scan [] (some m))
    (hne : s.rb.pread ≠ m) :
    Inv { s with rb := s.rb.clearFreed m, updater := .cleared m } := by
  have hbase : s.base = s.rb.pread := by simp only [Sys.base, hupd]
  have hsize := h.size_pos
  obtain ⟨hle, hsettled⟩ := h.scan_min _ _ hupd
  have hwin := h.le_window_of_settled hsettled
  have hmirror := h.mirror
  rw [hbase] at hwin hmirror
  exact
    { h with
      mirror := hmirror.clear_slide hsize (by omega) (by omega)
        fun p hp _ => h.tape_blank (by omega)
      pread_le_base := hle
      base_settled := hsettled
      slots := fun i hi => by
        refine ⟨?_, (h.slots i hi).2⟩
        rcases h.scanned _ _ hupd i hi with hmem | ⟨m', heq, hm⟩
        · cases hmem
        · obtain rfl := Option.some.inj heq
          exact hm
      scanned := nofun
      scan_occupied := nofun
      scan_min := nofun }

/-- Storing the new read position hands the cleared region to the producers. -/
theorem updatePublish {m : Nat} (h : Inv s) (hupd : s.updater = .cleared m) :
    Inv { s with rb := { s.rb with pread := m }, updater := .idle } := by
  have hbase : s.base = m := by simp only [Sys.base, hupd]
  have hsettled := h.base_settled
  rw [hbase] at hsettled
  exact
    { h with
      granted := fun pk hpk hphase => hbase ▸ h.stop_le_window hpk hphase
      mirror := by
        have hmirror := h.mirror
        rwa [hbase] at hmirror
      pread_settled := hsettled
      pread_le_base := le_rfl
      base_settled := hsettled
      slots := by
        have hslots := h.slots
        rwa [hbase] at hslots
      scanned := nofun
      scan_occupied := nofun
      scan_min := nofun }

/-! ### The data-keep reference -/

theorem adoptNewPread {ref : Ref} {keepSize : Nat} (h : Inv s) :
    Inv (s.adoptNewPread ref keepSize) := by
  unfold Sys.adoptNewPread
  split
  · exact h
  · split
    · exact h.moveSlot (by omega) h.newPread
    · exact h

/-- While the loop has work left, the packet at the reference's position is published. -/
theorem exists_packet_of_keep {kp : Keeper} (h : Inv s) (hkp : s.keeper = some kp)
    (hocc : s.rb.occupied kp.ref.slot) (hwork : kp.exhausted s.rb = false) :
    ∃ pk ∈ s.pkts, pk.start = (s.rb.slot kp.ref.slot).pread ∧ pk.phase = .published := by
  cases hw : kp.pwrite with
  | none => simp [Keeper.exhausted, hw] at hwork
  | some w =>
    obtain ⟨hle, hunpub⟩ := h.keeper kp hkp w hw
    have hlt : (s.rb.slot kp.ref.slot).pread + kp.keepSize < w := by
      simpa [Keeper.exhausted, hw] using hwork
    obtain ⟨pk, hmem, hstart⟩ :=
      (h.slots _ hocc).2.exists_start h.layout (by omega)
    refine ⟨pk, hmem, hstart, ?_⟩
    by_contra hphase
    have := hunpub pk hmem hphase
    omega

end Inv

/-- The value of `pwrite` the loop of `polar_ringbuf_ref_keep_data` reads is at most `keepSize`
beyond the first unpublished packet. -/
def Sys.keepsToPublished (s : Sys) : Op → Prop
  | .keepSample => ∀ kp, s.keeper = some kp →
      s.rb.pwrite ≤ firstUnpublished s.pkts s.rb.pwrite + kp.keepSize
  | _ => True

namespace Inv

variable {s t : Sys}

/-- The actions of a producer on its packet. -/
theorem producerStep {op : Op} (h : Inv s) (hop : op.process = .producer)
    (hstep : s.step op = some t) : Inv t := by
  cases op with
  | reserve len =>
    cases hstep
    exact h.reserve len
  | waitForSpace k =>
    obtain ⟨pk, hk, hphase, hstep⟩ := s.onPacket_eq_some hstep
    obtain ⟨hspace, ⟨⟩⟩ := ite_none_right_eq_some.mp hstep
    exact h.waitForSpace hk hphase hspace
  | setPktLength k =>
    obtain ⟨pk, hk, hphase, ⟨⟩⟩ := s.onPacket_eq_some hstep
    exact h.setPktLength hk hphase
  | pktWrite k offset buf =>
    obtain ⟨pk, hk, hphase, rfl | ⟨rb, hwrite, rfl⟩⟩ := s.step_pktWrite hstep
    · exact h
    · exact h.pktWrite hk hphase hwrite
  | setPktFlag k flag =>
    obtain ⟨pk, hk, hphase, hstep⟩ := s.onPacket_eq_some hstep
    obtain ⟨hflag, ⟨⟩⟩ := ite_none_right_eq_some.mp hstep
    exact h.setPktFlag hk hphase hflag
  | _ => cases hop

/-- A released slot is free, and the updater looks at the others. -/
theorem releaseRef {ref : Ref} (h : Inv s) (hstep : s.step (.releaseRef ref) = some t) :
    Inv t := by
  obtain ⟨⟨hidle, -⟩, ⟨⟩⟩ := ite_none_right_eq_some.mp hstep
  have hfree : Inv { s with
      rb := s.rb.freeSlot ref.slot
      refs := s.refs.erase ref
      polled := s.forget ref.slot } := by
    refine h.freeSlot hidle ref.slot (fun _ => mem_of_mem_erase) fun j => ?_
    by_cases hj : j = ref.slot <;> simp [Sys.forget, hj]
  exact hfree.updateBegin hidle

/-- The actions of the references. -/
theorem referenceStep {op : Op} (h : Inv s) (hop : op.process = .reference)
    (hstep : s.step op = some t) : Inv t := by
  cases op with
  | newRef strong =>
    obtain ⟨hidle, rfl | ⟨ref, rb, hnew, rfl⟩⟩ := s.step_newRef hstep
    · exact h
    · exact { h.newRef hidle hnew with }
  | setRefStrong ref strong =>
    obtain ⟨-, ⟨⟩⟩ := ite_none_right_eq_some.mp hstep
    unfold Ringbuf.setRefStrongProperty
    split
    · exact h.setStrong
    · exact h
  | nextPktType ref =>
    obtain ⟨-, ⟨⟩⟩ := ite_none_right_eq_some.mp hstep
    exact h.poll
  | updateRef ref =>
    obtain ⟨⟨hlive, -, hpoll⟩, ⟨⟩⟩ := ite_none_right_eq_some.mp hstep
    have hocc := h.occupied_of_live hlive
    obtain ⟨pk, hpk, hstart, hpub⟩ := h.polled _ hocc hpoll
    exact { (h.updateRef hocc hpk hstart hpub).2 with }
  | releaseRef ref => exact h.releaseRef hstep
  | evictRef =>
    obtain ⟨hidle, rfl | ⟨i, rfl⟩⟩ := s.step_evictRef hstep
    · exact h
    · exact h.freeSlot hidle i (fun _ => id) fun _ => id
  | _ => cases hop

/-- The steps of `polar_ringbuf_update_pread`. -/
theorem updaterStep {op : Op} (h : Inv s) (hop : op.process = .updater)
    (hstep : s.step op = some t) : Inv t := by
  cases op with
  | updateBegin =>
    obtain ⟨hidle, ⟨⟩⟩ := ite_none_right_eq_some.mp hstep
    exact h.updateBegin hidle
  | updateScan =>
    simp only [Sys.step] at hstep
    split at hstep <;> cases hstep
    next hupd => exact h.updateScan hupd
  | updateClear =>
    simp only [Sys.step] at hstep
    split at hstep
    · next hupd =>
      split at hstep <;> cases hstep
      · next hne => exact h.updateClear hupd hne
      · exact h.updateDone hupd
    · next hupd =>
      cases hstep
      exact h.updateDone hupd
    · cases hstep
  | updatePublish =>
    simp only [Sys.step] at hstep
    split at hstep <;> cases hstep
    next hupd => exact h.updatePublish hupd
  | _ => cases hop

/-- The steps of `polar_ringbuf_ref_keep_data`, the reading of `pwrite` under its side condition. -/
theorem keeperStep {op : Op} (h : Inv s) (hop : op.process = .keeper) (hok : s.keepsToPublished op)
    (hstep : s.step op = some t) : Inv t := by
  cases op with
  | takeNewPread ref =>
    obtain ⟨hlive, ⟨⟩⟩ := ite_none_right_eq_some.mp hstep
    exact { h with newPread := (h.slots _ (h.occupied_of_live hlive)).2 }
  | keepBegin ref keepSize =>
    obtain ⟨-, ⟨⟩⟩ := ite_none_right_eq_some.mp hstep
    refine { h.adoptNewPread with keeper := fun kp hkp w hw => ?_ }
    cases hkp
    cases hw
  | keepSample =>
    simp only [Sys.step] at hstep
    split at hstep
    · cases hstep
    next kp hkp =>
    obtain ⟨-, ⟨⟩⟩ := ite_none_right_eq_some.mp hstep
    refine { h with keeper := fun kp' hkp' w hw => ?_ }
    cases hkp'
    cases hw
    refine ⟨le_rfl, fun pk hpk hphase => (hok kp hkp).trans ?_⟩
    exact Nat.add_le_add_right (firstUnpublished_le h.layout hpk hphase) _
  | keepAdvance =>
    simp only [Sys.step] at hstep
    split at hstep
    · cases hstep
    next kp hkp =>
    obtain ⟨⟨hlive, hwork⟩, ⟨⟩⟩ := ite_none_right_eq_some.mp hstep
    have hocc := h.occupied_of_live hlive
    obtain ⟨pk, hpk, hstart, hpub⟩ := h.exists_packet_of_keep hkp hocc hwork
    exact (h.updateRef hocc hpk hstart hpub).2
  | keepEnd =>
    simp only [Sys.step] at hstep
    split at hstep
    · cases hstep
    next kp hkp =>
    obtain ⟨-, ⟨⟩⟩ := ite_none_right_eq_some.mp hstep
    exact { h with keeper := fun _ hkp' => by cases hkp' }
  | _ => cases hop

/-- Every action keeps the invariant, the reading of `pwrite` under its side condition. -/
theorem step {op : Op} (h : Inv s) (hok : s.keepsToPublished op) (hstep : s.step op = some t) :
    Inv t := by
  cases hwho : op.process with
  | producer => exact h.producerStep hwho hstep
  | reference => exact h.referenceStep hwho hstep
  | updater => exact h.updaterStep hwho hstep
  | keeper => exact h.keeperStep hwho hok hstep

end Inv

end Polar.Ringbuf
