import Polar.Ringbuf.Invariant
import Polar.Wal.RoundTrip
import Polar.XlogQueue.Codec

/-!
# What a push stores

Every write of `polar_xlog_send_queue_push` continues the packet data where the previous write
ended, so the contents of the packet are followed by `Filled`.
-/

namespace Polar.XlogQueue

open List

open Wal Ringbuf

/-- The packet data has length `n` and starts with `xs`. -/
structure Filled (n : Nat) (pk : Packet) (xs : List UInt8) : Prop where
  len : pk.len.toNat = n
  slice : Ring.slice pk.payload 0 xs.length = xs

section Writes

variable {n : Nat} {pk : Packet} {xs : List UInt8} {off : Int}

theorem pktWrite_append (h : Filled n pk xs) (hoff : off = xs.length) (buf : List UInt8)
    (hlt : xs.length < n) (hfit : xs.length + buf.length ≤ n) :
    ∃ pk', pktWrite pk off buf = (↑buf.length, pk') ∧ Filled n pk' (xs ++ buf) := by
  subst hoff
  refine ⟨pk.wrote xs.length buf, if_neg ?_, h.len, Ring.slice_splice_append h.slice buf⟩
  rw [h.len]
  omega

/-- The copy loop stores the first `m` bytes of the chain. -/
theorem copyChunks_append (chunks : List (List UInt8)) (h : Filled n pk xs)
    (hoff : off = xs.length) (dataSize : Nat) {m : Nat} (hfit : xs.length + m ≤ n)
    (hm : m ≤ chunks.flatten.length) (hsmall : m < 2 ^ 64) :
    ∃ pk', copyChunks dataSize (dataSize + m) off chunks pk = .ok (↑dataSize, off + m, pk') ∧
      Filled n pk' (xs ++ chunks.flatten.take m) := by
  induction chunks generalizing m xs off pk with
  | nil =>
    obtain rfl : m = 0 := Nat.le_zero.mp hm
    exact ⟨pk, by simp [copyChunks], by simpa using h⟩
  | cons chunk chunks ih =>
    have hleft : ((dataSize : Int) + m - dataSize) % 2 ^ 64 = m := by omega
    rw [copyChunks, hleft]
    rcases Nat.eq_zero_or_pos m with rfl | hpos
    · exact ⟨pk, by simp, by simpa using h⟩
    · rw [flatten_cons, length_append] at hm
      obtain ⟨w, hw⟩ : ∃ w, min m chunk.length = w := ⟨_, rfl⟩
      have hlen : (chunk.take w).length = w := by rw [length_take]; omega
      have hcount : (xs ++ chunk.take w).length = xs.length + w := by
        rw [length_append, hlen]
      obtain ⟨pk₁, hwrite, hfilled⟩ := pktWrite_append h hoff (chunk.take w) (by omega)
        (by omega)
      obtain ⟨pk₂, hrest, hfilled'⟩ := ih hfilled
        (show off + ↑w = _ by rw [hoff, hcount, Int.natCast_add])
        (m := m - w) (by omega) (by omega) (by omega)
      refine ⟨pk₂, ?_, ?_⟩
      · have hcopy : (dataSize : Int) + m - w = dataSize + ↑(m - w) := by omega
        have hend : off + ↑w + ↑(m - w) = off + m := by omega
        simp only [Int.toNat_natCast, hw, hwrite, hlen, gt_iff_lt, Int.natCast_pos, hpos,
          if_true, ne_eq, not_true, if_false, hcopy, hrest, hend]
      · have htake : (chunk ++ chunks.flatten).take m =
            chunk.take w ++ chunks.flatten.take (m - w) := by
          rw [take_append, take_eq_take_min]
          congr 2
          omega
        rw [flatten_cons, htake, ← append_assoc]
        exact hfilled'

/-- The block id and a length word in front of the extra data. -/
def extraHead (len : Nat) : List UInt8 := xlrBlockIdPolarExtra :: Bytes.ofNat 4 len

theorem length_extraHead (len : Nat) : (extraHead len).length = 5 := by
  rw [extraHead, length_cons, Bytes.length_ofNat]

/-- The two writes both encoders start with. -/
theorem pktWrite_extraHead (h : Filled n pk xs) (hoff : off = xs.length) (len : Nat)
    (hfit : xs.length + 5 ≤ n) :
    ∃ pk₁ pk₂, pktWrite pk off [xlrBlockIdPolarExtra] = (1, pk₁) ∧
      pktWrite pk₁ (off + 1) (Bytes.ofNat 4 len) = (4, pk₂) ∧
      Filled n pk₂ (xs ++ extraHead len) := by
  obtain ⟨pk₁, hid, hfilled⟩ := pktWrite_append h hoff [xlrBlockIdPolarExtra] (by omega)
    (by rw [length_singleton]; omega)
  have hone : (xs ++ [xlrBlockIdPolarExtra]).length = xs.length + 1 := by simp
  obtain ⟨pk₂, hlen, hfilled'⟩ := pktWrite_append hfilled
    (show off + 1 = _ by rw [hoff, hone]; rfl) (Bytes.ofNat 4 len) (by omega)
    (by rw [Bytes.length_ofNat]; omega)
  refine ⟨pk₁, pk₂, hid, hlen, ?_⟩
  rw [append_assoc] at hfilled'
  exact hfilled'

theorem writeMainData_append (h : Filled n pk xs) (hoff : off = xs.length) {dlen : Nat}
    {chunk : List UInt8} (chunks : List (List UInt8)) (hpos : 0 < dlen)
    (hchunk : dlen ≤ chunk.length) (hfit : xs.length + polarMainDataLen dlen ≤ n) :
    ∃ pk', writeMainData (chunk :: chunks) dlen off pk = .ok (↑(polarMainDataLen dlen), pk') ∧
      Filled n pk' (xs ++ (extraHead dlen ++ chunk.take dlen)) := by
  simp only [polarMainDataLen] at hfit ⊢
  obtain ⟨pk₁, pk₂, hid, hlen, hhead⟩ := pktWrite_extraHead h hoff dlen (by omega)
  have hfive : (xs ++ extraHead dlen).length = xs.length + 5 := by
    rw [length_append, length_extraHead]
  have htake : (chunk.take dlen).length = dlen := length_take_of_le hchunk
  obtain ⟨pk₃, hdata, hfilled⟩ := pktWrite_append hhead
    (show off + (1 + 4) = _ by rw [hoff, hfive]; rfl) (chunk.take dlen) (by omega)
    (by rw [htake]; omega)
  rw [append_assoc] at hfilled
  refine ⟨pk₃, ?_, hfilled⟩
  simp only [writeMainData, hid, hlen, hdata, htake, if_neg (Nat.not_lt.mpr hchunk)]
  congr 2

theorem writeMainData_badRead {mainData : List (List UInt8)} {dlen : Nat}
    (h : (mainData.head?.getD []).length < dlen) (off : Int) (pk : Packet) :
    writeMainData mainData dlen off pk = .error .badRead := by
  cases mainData with
  | nil => rfl
  | cons chunk chunks => exact if_pos h

/-- The chunk loop stores the whole chain. -/
theorem pushChunks_append {chunks : List (List UInt8)} (h : Filled n pk xs) {len dataLen : Nat}
    (hoff : off + len = xs.length) (hdata : dataLen = len + chunks.flatten.length)
    (hsmall : dataLen < 2 ^ 32) (hfit : xs.length + chunks.flatten.length ≤ n) :
    ∃ pk', pushChunks dataLen off len chunks pk = .ok (↑dataLen, pk') ∧
      Filled n pk' (xs ++ chunks.flatten) := by
  induction chunks generalizing len xs pk with
  | nil =>
    obtain rfl : dataLen = len := hdata
    have hdone : ¬ (dataLen : Int) % 2 ^ 32 < dataLen := by omega
    exact ⟨pk, by rw [pushChunks, if_neg hdone], by simpa using h⟩
  | cons chunk chunks ih =>
    rw [flatten_cons, length_append] at hdata hfit
    rw [pushChunks]
    by_cases hmore : (len : Int) % 2 ^ 32 < dataLen
    · rw [if_pos hmore]
      obtain ⟨pk₁, hwrite, hfilled⟩ := pktWrite_append h hoff chunk (by omega) (by omega)
      have hcount : (xs ++ chunk).length = xs.length + chunk.length := length_append
      obtain ⟨pk₂, hrest, hfilled'⟩ := ih hfilled
        (show off + ↑(len + chunk.length) = _ by omega) (by omega) (by omega)
      rw [append_assoc] at hfilled'
      rw [hwrite]
      exact ⟨pk₂, hrest, hfilled'⟩
    · rw [if_neg hmore]
      have hchunk : chunk = [] := length_eq_zero_iff.mp (by omega)
      have hchunks : chunks.flatten = [] := length_eq_zero_iff.mp (by omega)
      obtain rfl : dataLen = len := by omega
      exact ⟨pk, rfl, by simpa [hchunk, hchunks] using h⟩

theorem pushMainData_append (h : Filled n pk xs) (hoff : off = xs.length)
    {mainData : List (List UInt8)} (hsmall : polarMainDataLen mainData.flatten.length < 2 ^ 32)
    (hfit : xs.length + polarMainDataLen mainData.flatten.length ≤ n) :
    ∃ pk', pushMainData mainData mainData.flatten.length off pk =
        .ok (↑(polarMainDataLen mainData.flatten.length), pk') ∧
      Filled n pk' (xs ++ (extraHead (polarMainDataLen mainData.flatten.length) ++
        mainData.flatten)) := by
  simp only [pushMainData, Nat.mod_eq_of_lt hsmall]
  obtain ⟨dataLen, hdata⟩ : ∃ k, polarMainDataLen mainData.flatten.length = k := ⟨_, rfl⟩
  rw [hdata] at hsmall hfit ⊢
  simp only [polarMainDataLen] at hdata
  obtain ⟨pk₁, pk₂, hid, hlen, hhead⟩ := pktWrite_extraHead h hoff dataLen (by omega)
  have hfive : (xs ++ extraHead dataLen).length = xs.length + 5 := by
    rw [length_append, length_extraHead]
  obtain ⟨pk₃, hpush, hfilled⟩ := pushChunks_append hhead
    (show off + ↑(5 : Nat) = _ by rw [hoff, hfive]; rfl) hdata.symm hsmall (by omega)
  rw [append_assoc] at hfilled
  refine ⟨pk₃, ?_, hfilled⟩
  rw [hid]
  simp only [hlen]
  exact hpush

end Writes

/-- The first chunk of the main data holds the fixed part that is copied from it. -/
def Extra.Within (mainData : List (List UInt8)) : Extra → Prop
  | .none => True
  | .fixed dlen => dlen ≤ (mainData.head?.getD []).length
  | .whole => True

/-- The bytes behind the headers. -/
def Extra.bytes (mainData : List (List UInt8)) : Extra → List UInt8
  | .none => []
  | .fixed dlen => extraHead dlen ++ mainData.flatten.take dlen
  | .whole => extraHead (polarMainDataLen mainData.flatten.length) ++ mainData.flatten

theorem length_extraBytes {mainData : List (List UInt8)} {extra : Extra}
    (h : extra.Within mainData) :
    (extra.bytes mainData).length = extra.size mainData.flatten.length := by
  cases extra with
  | none => rfl
  | fixed dlen =>
    have hle : dlen ≤ mainData.flatten.length := by
      cases mainData with
      | nil => exact h
      | cons chunk chunks =>
        rw [flatten_cons, length_append]
        exact Nat.le_add_right_of_le h
    rw [Extra.bytes, length_append, length_take_of_le hle]
    rfl
  | whole =>
    rw [Extra.bytes, length_append]
    rfl

theorem reserveData_fixed {h : XLogRecord} {dlen : Nat} (hd : reserveData h = .fixed dlen) :
    0 < dlen ∧ dlen ≤ sizeOfHeapUpdate := by
  simp only [reserveData, reserveHeapData, reserveHeap2Data, reserveGistData, reserveHashData,
    reserveBtreeData, reserveSpgData, reserveXlogData] at hd
  repeat' split at hd
  all_goals cases hd
  all_goals decide

/-- Only records without payload carry extra data. -/
theorem reserveData_eq_none {h : XLogRecord} (hkeep : removePayload h = false) :
    reserveData h = .none := by
  simp only [removePayload] at hkeep
  split at hkeep
  · cases hkeep
  · next hother =>
    simp only [not_or] at hother
    obtain ⟨hheap, hheap2, hbtree, hhash, -, hgist, -, hspg, -, -⟩ := hother
    simp only [reserveData, reserveXlogData, if_neg hheap, if_neg hheap2, if_neg hgist,
      if_neg hhash, if_neg hbtree, if_neg hspg]
    by_cases hxlog : h.rmid = rmXlogId
    · simp_all
    · rw [if_neg hxlog]

theorem sendQueuePushData_append {n : Nat} {pk : Packet} {xs : List UInt8} {off : Int}
    (h : Filled n pk xs) (hoff : off = xs.length) {hdr : XLogRecord}
    {mainData : List (List UInt8)} (hwithin : (reserveData hdr).Within mainData)
    (hsmall : polarMainDataLen mainData.flatten.length < 2 ^ 32)
    (hfit : xs.length + (reserveData hdr).size mainData.flatten.length ≤ n) :
    ∃ pk', sendQueuePushData hdr mainData mainData.flatten.length off pk =
        .ok (↑((reserveData hdr).size mainData.flatten.length), pk') ∧
      Filled n pk' (xs ++ (reserveData hdr).bytes mainData) := by
  rw [sendQueuePushData, pushData_eq_reserveData]
  cases hextra : reserveData hdr with
  | none => exact ⟨pk, rfl, by simpa [Extra.bytes] using h⟩
  | fixed dlen =>
    rw [hextra] at hwithin hfit
    obtain ⟨hpos, -⟩ := reserveData_fixed hextra
    cases mainData with
    | nil => exact absurd hwithin (Nat.not_le.mpr hpos)
    | cons chunk chunks =>
      have hchunk : dlen ≤ chunk.length := hwithin
      obtain ⟨pk', hok, hfilled⟩ := writeMainData_append h hoff chunks hpos hchunk hfit
      refine ⟨pk', hok, ?_⟩
      rwa [Extra.bytes, flatten_cons, take_append_of_le_length hchunk]
  | whole =>
    rw [hextra] at hfit
    exact pushMainData_append h hoff hsmall hfit

section Insertion

variable (ins : Insertion) (prev : UInt64) (crc : UInt32)

/-- What the packet holds of the record: the first chunk or the whole record. -/
def stored : List UInt8 :=
  if removePayload (ins.header prev crc) then (ins.header prev crc).bytes ++ ins.headers
  else (ins.rdata prev crc).flatten

/-- `polar_xlog_reserve_size` of the assembled record. -/
def reservedSize : Nat :=
  reserveSize (ins.header prev crc) ((ins.header prev crc).bytes ++ ins.headers).length
    ins.mainDataLen

/-- The packet reserved for the record, once its length is set. -/
def reservedPacket (start : Nat) : Packet :=
  ((Packet.claim start (UInt32.ofNat (reservedSize ins prev crc + xlogHeadSize))).grant).setLength

/-- The push `XLogInsertRecord` makes after the packet length is set. -/
def pushRecord (start : Nat) (endLsn : UInt64) (xlogLen : UInt32) : Except PushError Packet :=
  sendQueuePush (ins.header prev crc) (ins.rdata prev crc) ins.mainData
    (reservedSize ins prev crc) endLsn xlogLen (reservedPacket ins prev crc start)

/-- The end LSN and the record length in front of the record. -/
def packetHead (endLsn : UInt64) (xlogLen : UInt32) : List UInt8 :=
  Bytes.ofNat 8 endLsn.toNat ++ Bytes.ofNat 4 xlogLen.toNat

theorem length_packetHead (endLsn : UInt64) (xlogLen : UInt32) :
    (packetHead endLsn xlogLen).length = xlogHeadSize := by
  rw [packetHead, length_append, Bytes.length_ofNat, Bytes.length_ofNat, xlogHeadSize]

variable {ins prev crc}

theorem header_totLen (hfits : ins.fits) :
    (ins.header prev crc).totLen.toNat = ins.totalLen := by
  simp only [Insertion.fits, xlogRecordMaxSize] at hfits
  exact Nat.mod_eq_of_lt (by omega)

theorem length_rdata : (ins.rdata prev crc).flatten.length = ins.totalLen := by
  simp only [Insertion.rdata, flatten_cons, flatten_append, length_append,
    XLogRecord.length_bytes, Insertion.totalLen, Insertion.mainDataLen]
  omega

/-- The part of the packet left for the record is as long as what is stored. -/
theorem reservedSize_eq (hfits : ins.fits) : reservedSize ins prev crc =
    (stored ins prev crc).length +
      (reserveData (ins.header prev crc)).size ins.mainDataLen := by
  rw [reservedSize, reserveSize, stored]
  split
  · rfl
  · rw [header_totLen hfits, length_rdata]

/-- What is stored is a first part of the chain. -/
theorem stored_eq_take : stored ins prev crc =
    (ins.rdata prev crc).flatten.take (stored ins prev crc).length := by
  rw [stored]
  split
  · rw [Insertion.rdata, flatten_cons, take_left]
  · rw [take_length]

theorem length_stored_le : (stored ins prev crc).length ≤ ins.totalLen := by
  rw [← @length_rdata ins prev crc, stored_eq_take]
  exact length_take_le' _ _

section

variable (hfits : ins.fits)
include hfits

theorem polarMainDataLen_lt : polarMainDataLen ins.mainDataLen < 2 ^ 32 := by
  simp only [Insertion.fits, Insertion.totalLen, xlogRecordMaxSize] at hfits
  rw [polarMainDataLen]
  omega

theorem reservedSize_lt : reservedSize ins prev crc + xlogHeadSize < 2 ^ 32 := by
  have hstored := @length_stored_le ins prev crc
  rw [reservedSize_eq hfits]
  simp only [Insertion.fits, xlogRecordMaxSize] at hfits
  cases hextra : reserveData (ins.header prev crc) with
  | none =>
    simp only [Extra.size, xlogHeadSize]
    omega
  | fixed dlen =>
    obtain ⟨-, hle⟩ := reserveData_fixed hextra
    simp only [Extra.size, polarMainDataLen, xlogHeadSize, sizeOfHeapUpdate] at hle ⊢
    omega
  | whole =>
    have hmain : ins.mainDataLen ≤ ins.totalLen := Nat.le_add_left _ _
    simp only [Extra.size, polarMainDataLen, xlogHeadSize]
    omega

theorem reservedPacket_filled (start : Nat) :
    Filled (reservedSize ins prev crc + xlogHeadSize) (reservedPacket ins prev crc start) [] where
  len := by
    change (UInt32.ofNat (reservedSize ins prev crc + xlogHeadSize)).toNat = _
    rw [UInt32.toNat_ofNat']
    exact Nat.mod_eq_of_lt (reservedSize_lt hfits)
  slice := rfl

/-- The writes before the extra data store the head and the record. -/
theorem copyRecord (start : Nat) (endLsn : UInt64) (xlogLen : UInt32) : ∃ pk₁ pk₂ pk₃,
      pktWrite (reservedPacket ins prev crc start) 0 (Bytes.ofNat 8 endLsn.toNat) = (8, pk₁) ∧
      pktWrite pk₁ 8 (Bytes.ofNat 4 xlogLen.toNat) = (4, pk₂) ∧
      copyChunks ((reserveData (ins.header prev crc)).size ins.mainDataLen)
          (reservedSize ins prev crc) (8 + 4) (ins.rdata prev crc) pk₂ =
        .ok (↑((reserveData (ins.header prev crc)).size ins.mainDataLen),
          8 + 4 + ↑(stored ins prev crc).length, pk₃) ∧
      Filled (reservedSize ins prev crc + xlogHeadSize) pk₃
        (packetHead endLsn xlogLen ++ stored ins prev crc) := by
  have hsize := @reservedSize_eq ins prev crc hfits
  have hlt := @reservedSize_lt ins prev crc hfits
  have hle := @length_stored_le ins prev crc
  have htwelve := length_packetHead endLsn xlogLen
  obtain ⟨pk₁, hlsn, hfilled₁⟩ := pktWrite_append
    (@reservedPacket_filled ins prev crc hfits start) (show (0 : Int) = _ from rfl)
    (Bytes.ofNat 8 endLsn.toNat)
    (by simp only [xlogHeadSize, length_nil]; omega)
    (by simp only [xlogHeadSize, length_nil, Bytes.length_ofNat]; omega)
  rw [nil_append] at hfilled₁
  obtain ⟨pk₂, hlen, hfilled₂⟩ := pktWrite_append hfilled₁
    (show (8 : Int) = _ by rw [Bytes.length_ofNat]; rfl) (Bytes.ofNat 4 xlogLen.toNat)
    (by rw [Bytes.length_ofNat, xlogHeadSize]; omega)
    (by rw [Bytes.length_ofNat, Bytes.length_ofNat, xlogHeadSize]; omega)
  obtain ⟨pk₃, hcopy, hfilled₃⟩ := copyChunks_append (ins.rdata prev crc) hfilled₂
    (show (8 + 4 : Int) = (packetHead endLsn xlogLen).length by rw [htwelve]; rfl)
    ((reserveData (ins.header prev crc)).size ins.mainDataLen)
    (m := (stored ins prev crc).length)
    (by change (packetHead endLsn xlogLen).length + _ ≤ _; rw [htwelve]; omega)
    (by rw [length_rdata]; exact hle) (by omega)
  rw [← stored_eq_take] at hfilled₃
  refine ⟨pk₁, pk₂, pk₃, hlsn, hlen, ?_, hfilled₃⟩
  rw [← hcopy, hsize, Int.natCast_add, Int.add_comm]

/-- A push either stores head, record and extra data, or reads past the first chunk. -/
theorem pushRecord_eq (start : Nat) (endLsn : UInt64) (xlogLen : UInt32) :
    ∃ pk, Filled (reservedSize ins prev crc + xlogHeadSize) pk
        (packetHead endLsn xlogLen ++ stored ins prev crc) ∧
      pushRecord ins prev crc start endLsn xlogLen = (do
        let (len, pk) ← sendQueuePushData (ins.header prev crc) ins.mainData ins.mainDataLen
          (packetHead endLsn xlogLen ++ stored ins prev crc).length pk
        let left := ↑((reserveData (ins.header prev crc)).size ins.mainDataLen) - len
        if left ≠ 0 then .error (.failedToPush left)
        else .ok (pk.publish (pktWalMeta ||| pktReady))) := by
  obtain ⟨pk₁, pk₂, pk₃, hlsn, hlen, hcopy, hfilled⟩ :=
    @copyRecord ins prev crc hfits start endLsn xlogLen
  have hoff : (8 + 4 + ↑(stored ins prev crc).length : Int) =
      (packetHead endLsn xlogLen ++ stored ins prev crc).length := by
    rw [length_append, length_packetHead]
    rfl
  refine ⟨pk₃, hfilled, ?_⟩
  rw [pushRecord, sendQueuePush, hlsn]
  simp only [hlen]
  rw [← hoff]
  exact congrArg (· >>= _) hcopy

theorem pushRecord_ok (start : Nat) (endLsn : UInt64) (xlogLen : UInt32)
    (hwithin : (reserveData (ins.header prev crc)).Within ins.mainData) :
    ∃ pk, pushRecord ins prev crc start endLsn xlogLen = .ok pk ∧
      pk.bytes = packetHead endLsn xlogLen ++ (stored ins prev crc ++
        (reserveData (ins.header prev crc)).bytes ins.mainData) := by
  obtain ⟨pk, hfilled, hpush⟩ := @pushRecord_eq ins prev crc hfits start endLsn xlogLen
  obtain ⟨pk', hdata, hfilled'⟩ := sendQueuePushData_append hfilled rfl hwithin
    (polarMainDataLen_lt hfits) (by
      have hsize := @reservedSize_eq ins prev crc hfits
      rw [length_append, length_packetHead]
      change _ + (reserveData (ins.header prev crc)).size ins.mainDataLen ≤ _
      omega)
  refine ⟨pk'.publish (pktWalMeta ||| pktReady), ?_, ?_⟩
  · rw [hpush]
    change (sendQueuePushData (ins.header prev crc) ins.mainData ins.mainData.flatten.length _ pk
      >>= _) = _
    rw [hdata]
    exact if_neg (not_not.mpr (Int.sub_self _))
  · rw [append_assoc] at hfilled'
    have htotal : (packetHead endLsn xlogLen ++ (stored ins prev crc ++
        (reserveData (ins.header prev crc)).bytes ins.mainData)).length = pk'.len.toNat := by
      rw [hfilled'.len, length_append, length_append, length_packetHead,
        length_extraBytes hwithin, reservedSize_eq hfits]
      change _ + (_ + (reserveData (ins.header prev crc)).size ins.mainDataLen) = _
      omega
    have hslice := hfilled'.slice
    rwa [htotal] at hslice

theorem pushRecord_badRead (start : Nat) (endLsn : UInt64)
    (xlogLen : UInt32) (hshort : ¬ (reserveData (ins.header prev crc)).Within ins.mainData) :
    pushRecord ins prev crc start endLsn xlogLen = .error .badRead := by
  obtain ⟨pk, -, hpush⟩ := @pushRecord_eq ins prev crc hfits start endLsn xlogLen
  rw [hpush, sendQueuePushData, pushData_eq_reserveData]
  generalize reserveData (ins.header prev crc) = extra at hshort
  cases extra with
  | none | whole => exact absurd trivial hshort
  | fixed dlen =>
    simp only [writeMainData_badRead (Nat.not_le.mp hshort)]
    rfl

end

end Insertion

end Polar.XlogQueue
