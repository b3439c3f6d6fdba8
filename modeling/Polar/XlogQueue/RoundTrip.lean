import Polar.XlogQueue.Push

/-!
# Packets are decoded

`polar_xlog_queue_decode` on what a push stores. The headers are always read back; of the extra
main data the fixed parts are, while the variable-sized parts carry a length word that is larger
than the data by the five bytes in front of it.
-/

namespace Polar.XlogQueue

open List

open Wal Ringbuf Reader

/-- What the decoder makes of the extra data: the bytes and how many of them lie past the packet. -/
def Extra.read (beyond : Nat → UInt8) (mainData : List (List UInt8)) : Extra → List UInt8 × Nat
  | .none => ([], 0)
  | .fixed dlen => (mainData.flatten.take dlen, 0)
  | .whole => (mainData.flatten ++ Ring.slice beyond 0 5, 5)

/-- The state once the extra data is read. -/
def QueueState.withExtra (beyond : Nat → UInt8) (mainData : List (List UInt8)) (extra : Extra)
    (st : HeaderState) : QueueState :=
  { st with
    mainData := (extra.read beyond mainData).1
    overrun := (extra.read beyond mainData).2 }

section Headers

variable {beyond : Nat → UInt8} {fuel : Nat} {st : QueueState} {rest : List UInt8}

/-- A turn of the loop on a block id. -/
theorem queueHeaders_cons (id : UInt8) :
    queueHeaders beyond (fuel + 1) st (id :: rest) =
      (if id = xlrBlockIdDataShort then do
        let _ ← take .panic 1
        queueHeaders beyond fuel st
      else if id = xlrBlockIdDataLong then do
        let _ ← take .panic 4
        queueHeaders beyond fuel st
      else if id = xlrBlockIdOrigin then do
        let _ ← take .panic 2
        queueHeaders beyond fuel st
      else if id = xlrBlockIdToplevelXid then do
        let _ ← take .panic 4
        queueHeaders beyond fuel st
      else if id = xlrBlockIdPolarExtra then do
        let st ← readExtra beyond st
        queueHeaders beyond fuel st
      else do
        check (id ≤ xlrMaxBlockId) .panic
        let hst ← readBlock .panic id st.toHeaderState
        queueHeaders beyond fuel { st with toHeaderState := hst } :
          Reader DecodeError QueueState) rest := by
  have hmore : (id :: rest).length > 0 := Nat.succ_pos _
  rw [queueHeaders, run_get_bind]
  exact run_ok_bind byte_cons

theorem queueHeaders_nil (hfuel : 1 ≤ fuel) : queueHeaders beyond fuel st [] = .ok (st, []) := by
  obtain ⟨fuel, rfl⟩ := Nat.exists_eq_add_of_le' hfuel
  rfl

theorem readExtra_bytes {len : Nat} (hlen : len < 256 ^ 4) (hrest : rest.length ≤ len) :
    readExtra beyond st (Bytes.ofNat 4 len ++ rest) = .ok ({ st with
      mainData := rest ++ Ring.slice beyond 0 (len - rest.length)
      overrun := len - rest.length }, []) := by
  rw [readExtra, run_ok_bind (nat_append hlen), run_get_bind, run_set_bind,
    drop_of_length_le hrest, run_ok_bind (check_ok isEmpty_nil), run_pure,
    take_of_length_le hrest]

theorem queueHeaders_extra {mainData : List (List UInt8)} {extra : Extra} {hst : HeaderState}
    (hwithin : extra.Within mainData)
    (hsmall : polarMainDataLen mainData.flatten.length < 2 ^ 32) (hfuel : 2 ≤ fuel) :
    queueHeaders beyond fuel { hst with } (extra.bytes mainData) =
      .ok (.withExtra beyond mainData extra hst, []) := by
  obtain ⟨fuel, rfl⟩ := Nat.exists_eq_add_of_le' hfuel
  have hbytes := length_extraBytes hwithin
  cases extra with
  | none => rfl
  | fixed dlen =>
    have hlen : (mainData.flatten.take dlen).length = dlen := by
      simp only [Extra.bytes, length_append, length_extraHead, Extra.size,
        polarMainDataLen] at hbytes
      omega
    have hle : dlen ≤ mainData.flatten.length := by
      rw [← hlen]
      exact length_take_le' _ _
    simp only [polarMainDataLen] at hsmall
    change queueHeaders beyond (fuel + 1 + 1) _
      (xlrBlockIdPolarExtra :: (Bytes.ofNat 4 dlen ++ mainData.flatten.take dlen)) = _
    rw [queueHeaders_cons, if_neg (by decide), if_neg (by decide), if_neg (by decide),
      if_neg (by decide), if_pos rfl,
      run_ok_bind (readExtra_bytes (by omega) hlen.le), queueHeaders_nil (by omega), hlen,
      Nat.sub_self]
    simp [QueueState.withExtra, Extra.read, Ring.slice]
  | whole =>
    change queueHeaders beyond (fuel + 1 + 1) _ (xlrBlockIdPolarExtra ::
      (Bytes.ofNat 4 (polarMainDataLen mainData.flatten.length) ++ mainData.flatten)) = _
    rw [queueHeaders_cons, if_neg (by decide), if_neg (by decide), if_neg (by decide),
      if_neg (by decide), if_pos rfl,
      run_ok_bind (readExtra_bytes hsmall (Nat.le_add_left _ _)), queueHeaders_nil (by omega),
      polarMainDataLen, Nat.add_sub_cancel]
    rfl

variable (ins : Insertion) {extra : Extra} {hst : HeaderState}

section

variable (hwithin : extra.Within ins.mainData)
  (hsmall : polarMainDataLen ins.mainDataLen < 2 ^ 32)
include hwithin hsmall

theorem queueHeaders_mainData (hfuel : 3 ≤ fuel) :
    queueHeaders beyond fuel { hst with } (ins.mainDataHeader ++ extra.bytes ins.mainData) =
      .ok (.withExtra beyond ins.mainData extra hst, []) := by
  obtain ⟨fuel, rfl⟩ := Nat.exists_eq_add_of_le' hfuel
  unfold Insertion.mainDataHeader
  split
  · exact queueHeaders_extra hwithin hsmall (by omega)
  · split
    · rw [cons_append, queueHeaders_cons, if_neg (by decide), if_pos rfl,
        run_ok_bind (take_append (Bytes.length_ofNat _ _))]
      exact queueHeaders_extra hwithin hsmall (by omega)
    · rw [cons_append, queueHeaders_cons, if_pos rfl,
        run_ok_bind (take_append (Bytes.length_ofNat _ _))]
      exact queueHeaders_extra hwithin hsmall (by omega)

theorem queueHeaders_toplevelXid (hfuel : 4 ≤ fuel) :
    queueHeaders beyond fuel { hst with }
        (ins.toplevelXidHeader ++ (ins.mainDataHeader ++ extra.bytes ins.mainData)) =
      .ok (.withExtra beyond ins.mainData extra hst, []) := by
  obtain ⟨fuel, rfl⟩ := Nat.exists_eq_add_of_le' hfuel
  unfold Insertion.toplevelXidHeader
  cases ins.toplevelXid with
  | none => exact queueHeaders_mainData ins hwithin hsmall (by omega)
  | some xid =>
    simp only [cons_append]
    rw [queueHeaders_cons, if_neg (by decide), if_neg (by decide), if_neg (by decide),
      if_pos rfl, run_ok_bind (take_append (Bytes.length_ofNat _ _))]
    exact queueHeaders_mainData ins hwithin hsmall (by omega)

theorem queueHeaders_trailer (hfuel : 5 ≤ fuel) :
    queueHeaders beyond fuel { hst with } (ins.trailer ++ extra.bytes ins.mainData) =
      .ok (.withExtra beyond ins.mainData extra hst, []) := by
  obtain ⟨fuel, rfl⟩ := Nat.exists_eq_add_of_le' hfuel
  simp only [Insertion.trailer, Insertion.originHeader, append_assoc]
  cases ins.origin with
  | none => exact queueHeaders_toplevelXid ins hwithin hsmall (by omega)
  | some origin =>
    simp only [cons_append]
    rw [queueHeaders_cons, if_neg (by decide), if_neg (by decide), if_pos rfl,
      run_ok_bind (take_append (Bytes.length_ofNat _ _))]
    exact queueHeaders_toplevelXid ins hwithin hsmall (by omega)

end

theorem queueHeaders_refs {refs : List BlockRef} (h : Chained hst.rlocator hst.nextBlockId refs) :
    queueHeaders beyond (fuel + refs.length) { hst with }
        (refs.flatMap BlockRef.bytes ++ rest) =
      queueHeaders beyond fuel { hst.addRefs refs with } rest := by
  induction refs generalizing hst with
  | nil => rfl
  | cons ref refs ih =>
    obtain ⟨hvalid, hid, hrest⟩ := h
    obtain ⟨h₁, h₂, h₃, h₄, h₅⟩ := hvalid.id_ne
    rw [flatMap_cons, append_assoc, length_cons, ← add_assoc]
    change queueHeaders beyond _ _
      (ref.id :: (ref.bytes.tail ++ (refs.flatMap BlockRef.bytes ++ rest))) = _
    rw [queueHeaders_cons, if_neg h₁, if_neg h₂, if_neg h₃, if_neg h₄, if_neg h₅,
      run_ok_bind (check_ok (decide_eq_true hvalid.id_le)),
      run_ok_bind (readBlock_bytes hvalid hid)]
    exact ih hrest

end Headers

section Decode

variable {ins : Insertion} {prev : UInt64} {crc : UInt32} (beyond : Nat → UInt8)

/-- A packet without payload yields the header, the block references and the extra data. -/
theorem queueDecode_headers (hfits : ins.fits)
    (hremove : removePayload (ins.header prev crc) = true) {extra : Extra}
    (hwithin : extra.Within ins.mainData) (decodePayload : Bool) :
    queueDecode decodePayload beyond
        ((ins.header prev crc).bytes ++ ins.headers ++ extra.bytes ins.mainData) =
      .ok { QueueDecoded.ofHeader (ins.header prev crc) with
        blocks := (ins.blocks.map (·.ref)).map fun ref => ⟨ref, [], []⟩
        mainData := (extra.read beyond ins.mainData).1
        overrun := (extra.read beyond ins.mainData).2 } := by
  have hrefs := length_le_flatMap_bytes (ins.blocks.map (·.ref))
  have hblocks := (Insertion.addRefs_init (ins.blocks.map (·.ref))).1
  obtain ⟨fuel, hfuel, hlen⟩ : ∃ fuel, 5 ≤ fuel ∧
      ((ins.header prev crc).bytes ++ ins.headers ++ extra.bytes ins.mainData).length =
        fuel + (ins.blocks.map (·.ref)).length := by
    refine ⟨((ins.header prev crc).bytes ++ ins.headers ++ extra.bytes ins.mainData).length -
      (ins.blocks.map (·.ref)).length, ?_, ?_⟩ <;>
    · rw [length_append, length_append, XLogRecord.length_bytes, ins.headers_eq,
        length_append, sizeOfXLogRecord]
      omega
  have hrun : queueDecodeRecord decodePayload beyond
      ((ins.header prev crc).bytes ++ ins.headers ++ extra.bytes ins.mainData) =
      .ok ({ QueueDecoded.ofHeader (ins.header prev crc) with
        blocks := (ins.blocks.map (·.ref)).map fun ref => ⟨ref, [], []⟩
        mainData := (extra.read beyond ins.mainData).1
        overrun := (extra.read beyond ins.mainData).2 }, []) := by
    rw [queueDecodeRecord, run_get_bind, hlen, append_assoc,
      run_ok_bind (readHeader_bytes _), if_pos hremove, ins.headers_eq, append_assoc]
    have hloop := @queueHeaders_refs beyond fuel (ins.trailer ++ extra.bytes ins.mainData) {} _
      ins.blocks_chained
    rw [queueHeaders_trailer ins hwithin (polarMainDataLen_lt hfits) hfuel] at hloop
    rw [run_ok_bind hloop, run_pure]
    simp only [QueueState.withExtra, hblocks]
  rw [queueDecode, hrun]
  rfl

theorem queueDecode_skipped (hkeep : removePayload (ins.header prev crc) = false)
    (rest : List UInt8) :
    queueDecode false beyond ((ins.header prev crc).bytes ++ rest) =
      .ok (.ofHeader (ins.header prev crc)) := by
  have hrun : queueDecodeRecord false beyond ((ins.header prev crc).bytes ++ rest) =
      .ok (.ofHeader (ins.header prev crc), rest) := by
    rw [queueDecodeRecord, run_get_bind, run_ok_bind (readHeader_bytes _),
      if_neg (by simp [hkeep]), if_pos (by decide), run_pure]
  rw [queueDecode, hrun]
  rfl

theorem queueDecode_payload {full : DecodedXLogRecord}
    (hkeep : removePayload (ins.header prev crc) = false)
    (hfull : decodeXLogRecord (ins.rdata prev crc).flatten = .ok full) :
    queueDecode true beyond (ins.rdata prev crc).flatten = .ok { full with overrun := 0 } := by
  have hhead : readHeader .panic (ins.rdata prev crc).flatten = .ok (ins.header prev crc,
      ins.headers ++ (ins.blockChunks ++ ins.mainData).flatten) := by
    rw [Insertion.rdata, flatten_cons]
    exact readHeader_bytes _
  have hrun : queueDecodeRecord true beyond (ins.rdata prev crc).flatten =
      .ok ({ full with overrun := 0 },
        ins.headers ++ (ins.blockChunks ++ ins.mainData).flatten) := by
    rw [queueDecodeRecord, run_get_bind, run_ok_bind hhead, if_neg (by simp [hkeep]),
      if_neg (by decide), hfull]
    rfl
  rw [queueDecode, hrun]
  rfl

theorem queueDecode_stored (hfits : ins.fits) (decodePayload : Bool)
    (hwithin : (reserveData (ins.header prev crc)).Within ins.mainData) :
    ∃ d, queueDecode decodePayload beyond (stored ins prev crc ++
          (reserveData (ins.header prev crc)).bytes ins.mainData) = .ok d ∧
      d.header = ins.header prev crc ∧
      d.blocks.map (·.ref) =
        (if removePayload (ins.header prev crc) ∨ decodePayload then ins.blocks.map (·.ref)
          else []) ∧
      (reserveData (ins.header prev crc) ≠ .none →
        (d.mainData, d.overrun) = (reserveData (ins.header prev crc)).read beyond ins.mainData) := by
  cases hremove : removePayload (ins.header prev crc) with
  | true =>
    rw [stored, if_pos hremove]
    refine ⟨_, queueDecode_headers beyond hfits hremove hwithin decodePayload, rfl, ?_,
      fun _ => rfl⟩
    simp
  | false =>
    rw [reserveData_eq_none hremove, stored, if_neg (by simp [hremove])]
    simp only [Extra.bytes, append_nil]
    cases decodePayload with
    | true =>
      refine ⟨_, queueDecode_payload beyond hremove (ins.decodeXLogRecord_rdata hfits prev crc),
        rfl, ?_, fun hne => absurd rfl hne⟩
      simp [AssembledBlock.decoded]
    | false =>
      refine ⟨_, queueDecode_skipped beyond hremove _, rfl, ?_, fun hne => absurd rfl hne⟩
      simp [QueueDecoded.ofHeader]

end Decode

/-- The extra data arrives as the record's main data and nothing past the packet is read. -/
def Extra.Carried (mainData : List UInt8) (d : QueueDecoded) : Extra → Prop
  | .none => True
  | .fixed dlen => d.mainData = mainData.take dlen ∧ d.overrun = 0
  | .whole => d.mainData = mainData ∧ d.overrun = 0

/-- The record is pushed, and decoding its packet agrees with decoding the full record. -/
def RoundTrips (ins : Insertion) (prev : UInt64) (crc : UInt32) (start : Nat) (endLsn : UInt64)
    (xlogLen : UInt32) (decodePayload : Bool) (beyond : Nat → UInt8) : Prop :=
  ∃ pk d full, pushRecord ins prev crc start endLsn xlogLen = .ok pk ∧
    queueDecode decodePayload beyond (pk.bytes.drop xlogHeadSize) = .ok d ∧
    decodeXLogRecord (ins.rdata prev crc).flatten = .ok full ∧
    d.header = full.header ∧
    d.blocks.map (·.ref) = full.blocks.map (·.ref) ∧
    (reserveData (ins.header prev crc)).Carried full.mainData d

/-- The extra data that survives: none, or a fixed part that lies in the first chunk. -/
def Extra.Sound (mainData : List (List UInt8)) : Extra → Prop
  | .none => True
  | .fixed dlen => dlen ≤ (mainData.head?.getD []).length
  | .whole => False

instance (mainData : List (List UInt8)) : DecidablePred (Extra.Sound mainData)
  | .none => .isTrue trivial
  | .fixed _ => inferInstanceAs (Decidable (_ ≤ _))
  | .whole => .isFalse id

theorem Extra.carried_iff {beyond : Nat → UInt8} {mainData : List (List UInt8)} {extra : Extra}
    {d : QueueDecoded} (hwithin : extra.Within mainData)
    (hread : extra ≠ .none → (d.mainData, d.overrun) = extra.read beyond mainData) :
    extra.Carried mainData.flatten d ↔ extra.Sound mainData := by
  cases extra with
  | none => exact Iff.rfl
  | fixed dlen =>
    obtain ⟨hmain, hover⟩ := Prod.mk.inj (hread nofun)
    exact ⟨fun _ => hwithin, fun _ => ⟨hmain, hover⟩⟩
  | whole =>
    obtain ⟨-, hover⟩ := Prod.mk.inj (hread nofun)
    exact ⟨fun hcarried => absurd (hover.symm.trans hcarried.2) (by decide), False.elim⟩

theorem Extra.Sound.within {mainData : List (List UInt8)} {extra : Extra}
    (h : extra.Sound mainData) : extra.Within mainData := by
  cases extra with
  | none => trivial
  | fixed dlen => exact h
  | whole => exact h.elim

theorem drop_packetHead {endLsn : UInt64} {xlogLen : UInt32} {rest : List UInt8} :
    (packetHead endLsn xlogLen ++ rest).drop xlogHeadSize = rest :=
  drop_left' (length_packetHead endLsn xlogLen)

section RoundTrips

variable {ins : Insertion} {prev : UInt64} {crc : UInt32} {start : Nat} {endLsn : UInt64}
  {xlogLen : UInt32} {decodePayload : Bool} {beyond : Nat → UInt8}

/-- Where the first chunk holds what is copied from it, only the decoder decides. -/
theorem roundTrips_of_within (hfits : ins.fits)
    (hwithin : (reserveData (ins.header prev crc)).Within ins.mainData) :
    RoundTrips ins prev crc start endLsn xlogLen decodePayload beyond ↔
      (reserveData (ins.header prev crc)).Sound ins.mainData ∧
        (removePayload (ins.header prev crc) ∨ decodePayload ∨ ins.blocks = []) := by
  obtain ⟨pk, hpush, hbytes⟩ := pushRecord_ok hfits start endLsn xlogLen hwithin
  obtain ⟨d, hdecode, hheader, hblocks, hread⟩ :=
    queueDecode_stored beyond hfits decodePayload hwithin
  have hfull := ins.decodeXLogRecord_rdata hfits prev crc
  have hcarried := Extra.carried_iff hwithin hread
  have hdrop : pk.bytes.drop xlogHeadSize = stored ins prev crc ++
      (reserveData (ins.header prev crc)).bytes ins.mainData := by
    rw [hbytes]
    exact drop_packetHead
  rw [← hdrop] at hdecode
  constructor
  · rintro ⟨pk', d', full, hpush', hdecode', hfull', -, hrefs, hextra⟩
    cases hpush.symm.trans hpush'
    cases hdecode.symm.trans hdecode'
    cases hfull.symm.trans hfull'
    refine ⟨hcarried.mp hextra, ?_⟩
    by_cases hread : removePayload (ins.header prev crc) ∨ decodePayload
    · exact hread.imp_right Or.inl
    · rw [hblocks, if_neg hread] at hrefs
      exact .inr (.inr (by simpa using hrefs.symm))
  · rintro ⟨hsound, hor⟩
    refine ⟨pk, d, _, hpush, hdecode, hfull, hheader, ?_, hcarried.mpr hsound⟩
    rw [hblocks, map_map]
    split
    · rfl
    · next hnone =>
      have hempty : ins.blocks = [] := by
        rw [not_or] at hnone
        exact (hor.resolve_left hnone.1).resolve_left hnone.2
      rw [hempty]
      rfl

end RoundTrips

/-- A record survives its packet exactly when its extra data is absent or a fixed part inside the
first chunk of the main data, and the decoder does not skip the block references of a record that
is stored as a whole. -/
theorem roundTrips_iff (ins : Insertion) (hfits : ins.fits) (prev : UInt64) (crc : UInt32)
    (start : Nat) (endLsn : UInt64) (xlogLen : UInt32) (decodePayload : Bool)
    (beyond : Nat → UInt8) :
    RoundTrips ins prev crc start endLsn xlogLen decodePayload beyond ↔
      (reserveData (ins.header prev crc)).Sound ins.mainData ∧
        (removePayload (ins.header prev crc) ∨ decodePayload ∨ ins.blocks = []) := by
  by_cases hwithin : (reserveData (ins.header prev crc)).Within ins.mainData
  · exact roundTrips_of_within hfits hwithin
  · constructor
    · rintro ⟨pk, -, -, hpush, -⟩
      cases (pushRecord_badRead hfits start endLsn xlogLen hwithin).symm.trans hpush
    · rintro ⟨hsound, -⟩
      exact absurd hsound.within hwithin

/-- A record without block references and with one chunk of main data. -/
def mainDataRecord (rmid info : UInt8) (chunk : List UInt8) : Insertion where
  rmid := rmid
  info := info
  xid := 0
  redoRecPtr := 0
  doPageWrites := false
  consistencyChecking := false
  compression := none
  buffers := []
  buffers_le := Nat.zero_le _
  origin := none
  toplevelXid := none
  mainData := [chunk]

/-- The packet of a `XLOG_HEAP_INSERT` record carries its three bytes of main data. -/
theorem roundTrips_heapInsert :
    (mainDataRecord rmHeapId xlogHeapInsert [1, 0, 0]).fits ∧
      RoundTrips (mainDataRecord rmHeapId xlogHeapInsert [1, 0, 0]) 0 0 0 0 0 true
        (fun _ => 0) := by
  have hfits : (mainDataRecord rmHeapId xlogHeapInsert [1, 0, 0]).fits :=
    show Insertion.totalLen _ ≤ _ by decide
  exact ⟨hfits, (roundTrips_iff _ hfits 0 0 0 0 0 true _).mpr ⟨by decide, .inr (.inl rfl)⟩⟩

/-- A `XLOG_BTREE_REUSE_PAGE` record: its packet announces five bytes more than it holds. -/
theorem not_roundTrips_btreeReusePage :
    (mainDataRecord rmBtreeId xlogBtreeReusePage (replicate 25 0)).fits ∧
      ¬ RoundTrips (mainDataRecord rmBtreeId xlogBtreeReusePage (replicate 25 0)) 0 0 0 0 0
        true (fun _ => 0) := by
  have hfits : (mainDataRecord rmBtreeId xlogBtreeReusePage (replicate 25 0)).fits :=
    show Insertion.totalLen _ ≤ _ by decide
  refine ⟨hfits, fun h => ?_⟩
  have hwithin : (reserveData ((mainDataRecord rmBtreeId xlogBtreeReusePage
      (replicate 25 0)).header 0 0)).Within [replicate 25 0] := by
    trivial
  exact ((roundTrips_of_within hfits hwithin).mp h).1

end Polar.XlogQueue
