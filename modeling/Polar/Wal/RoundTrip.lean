import Polar.Wal.Headers

/-!
# Every assembled record is decoded

`DecodeXLogRecord` accepts every record `XLogRecordAssemble` constructs and returns the registered
block references with their images and data, and the main data.
-/

namespace Polar.Wal

open List Reader

/-- Block references in order of their ids, each valid after the one before. -/
def Chained : Option RelFileLocator → Nat → List BlockRef → Prop
  | _, _, [] => True
  | prev, id, ref :: refs =>
    ref.Valid prev ∧ id ≤ ref.id.toNat ∧ Chained (some ref.rlocator) (ref.id.toNat + 1) refs

theorem Chained.mono {prev : Option RelFileLocator} {id id' : Nat} {refs : List BlockRef}
    (h : Chained prev id refs) (hle : id' ≤ id) : Chained prev id' refs := by
  cases refs with
  | nil => trivial
  | cons ref refs => exact ⟨h.1, Nat.le_trans hle h.2.1, h.2.2⟩

namespace Insertion

variable (ins : Insertion)

theorem assembleBlocks_chained (prev : Option RelFileLocator) (id : Nat)
    (bufs : List (Option RegisteredBuffer)) (hlen : id + bufs.length ≤ 33) :
    Chained prev id ((ins.assembleBlocks prev id bufs).map (·.ref)) := by
  induction bufs generalizing prev id with
  | nil => trivial
  | cons buf bufs ih =>
    rw [length_cons] at hlen
    cases buf with
    | none => exact (ih prev (id + 1) (by omega)).mono (Nat.le_succ id)
    | some buf =>
      have hid : (UInt8.ofNat id).toNat = id := by
        exact Nat.mod_eq_of_lt (by omega)
      refine ⟨(ins.assembleBlock_spec buf prev (by omega)).1, Nat.le_of_eq hid.symm, ?_⟩
      have hrest := ih (some buf.rlocator) (id + 1) (by omega)
      exact hid.symm ▸ hrest

/-- The bytes logged for a block are as many as its reference announces. -/
theorem length_of_mem_assembleBlocks (prev : Option RelFileLocator) (id : Nat)
    (bufs : List (Option RegisteredBuffer)) (hlen : id + bufs.length ≤ 33) :
    ∀ b ∈ ins.assembleBlocks prev id bufs,
      b.image.flatten.length = b.ref.imageLen ∧ b.data.flatten.length = b.ref.dataLen := by
  induction bufs generalizing prev id with
  | nil => simp [assembleBlocks]
  | cons buf bufs ih =>
    rw [length_cons] at hlen
    cases buf with
    | none => exact ih prev (id + 1) (by omega)
    | some buf =>
      intro b hb
      rcases mem_cons.mp hb with rfl | hmem
      · exact (ins.assembleBlock_spec buf prev (by omega)).2
      · exact ih _ _ (by omega) b hmem

theorem blocks_chained : Chained none 0 (ins.blocks.map (·.ref)) :=
  ins.assembleBlocks_chained none 0 ins.buffers (by simpa using ins.buffers_le)

theorem length_of_mem_blocks : ∀ b ∈ ins.blocks,
    b.image.flatten.length = b.ref.imageLen ∧ b.data.flatten.length = b.ref.dataLen :=
  ins.length_of_mem_assembleBlocks none 0 ins.buffers (by simpa using ins.buffers_le)

end Insertion

/-- Note a list of block references. -/
def HeaderState.addRefs (st : HeaderState) (refs : List BlockRef) : HeaderState :=
  refs.foldl HeaderState.addRef st

theorem HeaderState.addRefs_datatotal (st : HeaderState) (refs : List BlockRef) :
    (st.addRefs refs).datatotal =
      st.datatotal + (refs.map fun ref => ref.dataLen + ref.imageLen).sum := by
  induction refs generalizing st with
  | nil => rfl
  | cons ref refs ih =>
    rw [map_cons, sum_cons, ← add_assoc]
    exact ih (st.addRef ref)

/-- What the two decoders agree on: block ids are never one of the special ids. -/
theorem BlockRef.Valid.id_ne {prev : Option RelFileLocator} {ref : BlockRef}
    (h : ref.Valid prev) : ref.id ≠ xlrBlockIdDataShort ∧ ref.id ≠ xlrBlockIdDataLong ∧
      ref.id ≠ xlrBlockIdOrigin ∧ ref.id ≠ xlrBlockIdToplevelXid ∧
      ref.id ≠ xlrBlockIdPolarExtra := by
  have hle := h.id_le
  refine ⟨?_, ?_, ?_, ?_, ?_⟩ <;> intro heq <;> rw [heq] at hle <;> exact absurd hle (by decide)

section DecodeHeaders

variable {st : HeaderState} {fuel : Nat} {rest : List UInt8}

theorem decodeHeaders_ref {ref : BlockRef} (h : ref.Valid st.rlocator)
    (hid : st.nextBlockId ≤ ref.id.toNat) (hlen : st.datatotal ≤ rest.length) :
    decodeHeaders (fuel + 1) st (ref.bytes ++ rest) = decodeHeaders fuel (st.addRef ref) rest := by
  obtain ⟨h₁, h₂, h₃, h₄, -⟩ := h.id_ne
  have hlong : (ref.bytes ++ rest).length > st.datatotal := by
    simp only [length_append, BlockRef.bytes, length_cons]
    omega
  change (if (ref.bytes ++ rest).length > st.datatotal then _ else _ : Reader _ _) _ = _
  rw [if_pos hlong]
  change (byte DecodeError.shortData >>= _) (ref.id :: (ref.bytes.tail ++ rest)) = _
  rw [run_ok_bind byte_cons, if_neg h₁, if_neg h₂, if_neg h₃, if_neg h₄, if_pos h.id_le,
    run_ok_bind (readBlock_bytes h hid)]

theorem decodeHeaders_refs {refs : List BlockRef} (h : Chained st.rlocator st.nextBlockId refs)
    (hlen : (st.addRefs refs).datatotal ≤ rest.length) :
    decodeHeaders (fuel + refs.length) st (refs.flatMap BlockRef.bytes ++ rest) =
      decodeHeaders fuel (st.addRefs refs) rest := by
  induction refs generalizing st with
  | nil => rfl
  | cons ref refs ih =>
    obtain ⟨hvalid, hid, hrest⟩ := h
    rw [HeaderState.addRefs_datatotal] at hlen
    rw [map_cons, sum_cons] at hlen
    rw [flatMap_cons, append_assoc, length_cons, ← add_assoc,
      decodeHeaders_ref hvalid hid (by rw [length_append]; omega)]
    refine ih hrest ?_
    rw [HeaderState.addRefs_datatotal]
    simp only [HeaderState.addRef]
    omega

/-- Reading a field of fixed size that follows a special block id. -/
theorem decodeHeaders_field {id : UInt8} {xs : List UInt8} (hlen : st.datatotal ≤ rest.length) :
    decodeHeaders (fuel + 1) st (id :: xs ++ rest) =
      (if id = xlrBlockIdDataShort then do
        let len ← nat .shortData 1
        return { st with mainDataLen := len, datatotal := st.datatotal + len }
      else if id = xlrBlockIdDataLong then do
        let len ← nat .shortData 4
        return { st with mainDataLen := len, datatotal := st.datatotal + len }
      else if id = xlrBlockIdOrigin then do
        let origin ← nat .shortData 2
        decodeHeaders fuel { st with origin := .ofNat origin }
      else if id = xlrBlockIdToplevelXid then do
        let xid ← nat .shortData 4
        decodeHeaders fuel { st with toplevelXid := .ofNat xid }
      else if id ≤ xlrMaxBlockId then do
        let st ← readBlock .shortData id st
        decodeHeaders fuel st
      else throw .invalidBlockId : Reader DecodeError HeaderState) (xs ++ rest) := by
  have hlong : (id :: xs ++ rest).length > st.datatotal := by
    rw [length_append, length_cons]
    omega
  rw [decodeHeaders]
  change (if (id :: xs ++ rest).length > st.datatotal then _ else _ : Reader _ _) _ = _
  rw [if_pos hlong]
  exact run_ok_bind byte_cons

variable (ins : Insertion)

variable (hmain : ins.mainDataLen < 2 ^ 32)
include hmain

/-- The main data header ends the loop, and so does its absence. -/
theorem decodeHeaders_mainData (hfuel : 1 ≤ fuel)
    (hlen : rest.length = st.datatotal + ins.mainDataLen) (hzero : st.mainDataLen = 0) :
    decodeHeaders fuel st (ins.mainDataHeader ++ rest) = .ok ({ st with
      mainDataLen := ins.mainDataLen
      datatotal := st.datatotal + ins.mainDataLen }, rest) := by
  obtain ⟨fuel, rfl⟩ := Nat.exists_eq_add_of_le' hfuel
  unfold Insertion.mainDataHeader
  split
  · next h =>
    have hshort : ¬ ([] ++ rest).length > st.datatotal := by
      rw [nil_append]
      omega
    change (if ([] ++ rest).length > st.datatotal then _ else _ : Reader _ _) _ = _
    rw [if_neg hshort, h, add_zero, ← hzero]
    rfl
  · split
    · rw [decodeHeaders_field (by omega), if_neg (by decide), if_pos rfl,
        run_ok_bind (nat_append (by simpa using hmain)), run_pure]
    · rw [decodeHeaders_field (by omega), if_pos rfl,
        run_ok_bind (nat_append (by omega)), run_pure]

theorem decodeHeaders_toplevelXid (hfuel : 2 ≤ fuel)
    (hlen : rest.length = st.datatotal + ins.mainDataLen) (hzero : st.mainDataLen = 0)
    (hxid : st.toplevelXid = 0) :
    decodeHeaders fuel st (ins.toplevelXidHeader ++ (ins.mainDataHeader ++ rest)) = .ok ({ st with
      toplevelXid := ins.toplevelXid.getD 0
      mainDataLen := ins.mainDataLen
      datatotal := st.datatotal + ins.mainDataLen }, rest) := by
  obtain ⟨fuel, rfl⟩ := Nat.exists_eq_add_of_le' hfuel
  unfold Insertion.toplevelXidHeader
  cases ins.toplevelXid with
  | none =>
    rw [nil_append, decodeHeaders_mainData ins hmain (by omega) hlen hzero]
    simp [← hxid]
  | some xid =>
    change decodeHeaders (fuel + 1 + 1) st
      (xlrBlockIdToplevelXid :: Bytes.ofNat 4 xid.toNat ++ (ins.mainDataHeader ++ rest)) = _
    rw [decodeHeaders_field (by rw [length_append]; omega), if_neg (by decide),
      if_neg (by decide), if_neg (by decide), if_pos rfl,
      run_ok_bind (nat_append (by simpa using xid.toNat_lt)), UInt32.ofNat_toNat]
    exact @decodeHeaders_mainData { st with toplevelXid := xid } (fuel + 1) rest ins hmain
      (Nat.le_add_left 1 fuel) hlen hzero

theorem decodeHeaders_trailer (hfuel : 3 ≤ fuel)
    (hlen : rest.length = st.datatotal + ins.mainDataLen) (hzero : st.mainDataLen = 0)
    (hxid : st.toplevelXid = 0) (horigin : st.origin = 0) :
    decodeHeaders fuel st (ins.trailer ++ rest) = .ok ({ st with
      origin := ins.origin.getD 0
      toplevelXid := ins.toplevelXid.getD 0
      mainDataLen := ins.mainDataLen
      datatotal := st.datatotal + ins.mainDataLen }, rest) := by
  obtain ⟨fuel, rfl⟩ := Nat.exists_eq_add_of_le' hfuel
  simp only [Insertion.trailer, Insertion.originHeader, append_assoc]
  cases ins.origin with
  | none =>
    rw [nil_append, decodeHeaders_toplevelXid ins hmain (by omega) hlen hzero hxid]
    simp [← horigin]
  | some origin =>
    change decodeHeaders (fuel + 2 + 1) st (xlrBlockIdOrigin :: Bytes.ofNat 2 origin.toNat ++
      (ins.toplevelXidHeader ++ (ins.mainDataHeader ++ rest))) = _
    rw [decodeHeaders_field (by simp only [length_append]; omega), if_neg (by decide),
      if_neg (by decide), if_pos rfl,
      run_ok_bind (nat_append (by simpa using origin.toNat_lt)), UInt16.ofNat_toNat]
    exact @decodeHeaders_toplevelXid { st with origin := origin } (fuel + 2) rest ins hmain
      (Nat.le_add_left 2 fuel) hlen hzero hxid

end DecodeHeaders

/-- The decoded form of an assembled block. -/
def AssembledBlock.decoded (b : AssembledBlock) : DecodedBkpBlock :=
  ⟨b.ref, b.image.flatten, b.data.flatten⟩

theorem readBlocks_chunks {short : DecodeError} {rest : List UInt8} {blocks : List AssembledBlock}
    (h : ∀ b ∈ blocks,
      b.image.flatten.length = b.ref.imageLen ∧ b.data.flatten.length = b.ref.dataLen) :
    readBlocks short (blocks.map (·.ref))
      ((blocks.flatMap fun b => b.image ++ b.data).flatten ++ rest) =
        .ok (blocks.map AssembledBlock.decoded, rest) := by
  induction blocks with
  | nil => rfl
  | cons b blocks ih =>
    obtain ⟨himage, hdata⟩ := h b mem_cons_self
    simp only [map_cons, readBlocks, flatMap_cons, flatten_append,
      append_assoc]
    rw [run_ok_bind (take_append himage), run_ok_bind (take_append hdata),
      run_ok_bind (ih fun b hb => h b (mem_cons_of_mem _ hb)), run_pure]
    rfl

theorem length_blockChunks {blocks : List AssembledBlock} (h : ∀ b ∈ blocks,
      b.image.flatten.length = b.ref.imageLen ∧ b.data.flatten.length = b.ref.dataLen) :
    (blocks.flatMap fun b => b.image ++ b.data).flatten.length =
      ((blocks.map (·.ref)).map fun ref => ref.dataLen + ref.imageLen).sum := by
  induction blocks with
  | nil => rfl
  | cons b blocks ih =>
    obtain ⟨himage, hdata⟩ := h b mem_cons_self
    simp only [flatMap_cons, flatten_append, length_append, map_cons,
      sum_cons, himage, hdata, ih fun b hb => h b (mem_cons_of_mem _ hb)]
    omega

theorem length_le_flatMap_bytes (refs : List BlockRef) :
    refs.length ≤ (refs.flatMap BlockRef.bytes).length := by
  induction refs with
  | nil => exact Nat.le_refl 0
  | cons ref refs ih =>
    simp only [flatMap_cons, length_append, length_cons, BlockRef.bytes]
    omega

namespace Insertion

variable (ins : Insertion)

/-- The state after all headers. -/
def headerState : HeaderState :=
  { HeaderState.addRefs {} (ins.blocks.map (·.ref)) with
    origin := ins.origin.getD 0
    toplevelXid := ins.toplevelXid.getD 0
    mainDataLen := ins.mainDataLen
    datatotal := ins.blockChunks.flatten.length + ins.mainDataLen }

theorem addRefs_init (refs : List BlockRef) :
    (HeaderState.addRefs {} refs).blocks = refs ∧
      (HeaderState.addRefs {} refs).mainDataLen = 0 ∧
      (HeaderState.addRefs {} refs).toplevelXid = 0 ∧
      (HeaderState.addRefs {} refs).origin = 0 := by
  suffices key : ∀ (st : HeaderState), (st.addRefs refs).blocks = st.blocks ++ refs ∧
      (st.addRefs refs).mainDataLen = st.mainDataLen ∧
      (st.addRefs refs).toplevelXid = st.toplevelXid ∧ (st.addRefs refs).origin = st.origin from
    key {}
  induction refs with
  | nil => exact fun st => ⟨(append_nil _).symm, rfl, rfl, rfl⟩
  | cons ref refs ih =>
    intro st
    obtain ⟨hblocks, hmain, hxid, horigin⟩ := ih (st.addRef ref)
    refine ⟨?_, hmain, hxid, horigin⟩
    change (HeaderState.addRefs _ refs).blocks = _
    rw [hblocks]
    exact append_assoc _ [ref] refs

theorem mainDataLen_lt (hfits : ins.fits) : ins.mainDataLen < 2 ^ 32 := by
  simp only [fits, totalLen, xlogRecordMaxSize] at hfits
  omega

theorem addRefs_datatotal : (HeaderState.addRefs {} (ins.blocks.map (·.ref))).datatotal =
    ins.blockChunks.flatten.length := by
  rw [HeaderState.addRefs_datatotal, blockChunks, length_blockChunks ins.length_of_mem_blocks]
  exact zero_add _

theorem headers_eq : ins.headers =
    (ins.blocks.map (·.ref)).flatMap BlockRef.bytes ++ ins.trailer := by
  rw [headers, flatMap_map]

theorem decodeHeaders_headers {fuel : Nat} {rest : List UInt8} (hfits : ins.fits)
    (hfuel : ins.headers.length + 3 ≤ fuel)
    (hlen : rest.length = ins.blockChunks.flatten.length + ins.mainDataLen) :
    decodeHeaders fuel {} (ins.headers ++ rest) = .ok (ins.headerState, rest) := by
  obtain ⟨-, hzero, hxid, horigin⟩ := addRefs_init (ins.blocks.map (·.ref))
  have htotal := ins.addRefs_datatotal
  have hrefs := length_le_flatMap_bytes (ins.blocks.map (·.ref))
  rw [headers_eq, length_append] at hfuel
  obtain ⟨f, rfl⟩ : ∃ f, fuel = f + (ins.blocks.map (·.ref)).length := by
    exact ⟨_, (Nat.sub_add_cancel (by omega)).symm⟩
  rw [headers_eq, append_assoc, decodeHeaders_refs ins.blocks_chained
    (by rw [length_append]; omega)]
  rw [decodeHeaders_trailer ins (ins.mainDataLen_lt hfits) (by omega) (by rw [htotal, hlen]) hzero
    hxid horigin, htotal]
  rfl

/-- `DecodeXLogRecord` returns what was registered. -/
theorem decodeXLogRecord_rdata (hfits : ins.fits) (prev : UInt64) (crc : UInt32) :
    decodeXLogRecord (ins.rdata prev crc).flatten = .ok
      { header := ins.header prev crc
        blocks := ins.blocks.map AssembledBlock.decoded
        origin := ins.origin.getD 0
        toplevelXid := ins.toplevelXid.getD 0
        mainData := ins.mainData.flatten
        metaSize := sizeOfXLogRecord + ins.headers.length } := by
  have htot : (ins.header prev crc).totLen.toNat = ins.totalLen := by
    apply Nat.mod_eq_of_lt
    simp only [fits, xlogRecordMaxSize] at hfits
    omega
  have hpay : (ins.blockChunks.flatten ++ ins.mainData.flatten).length =
      ins.blockChunks.flatten.length + ins.mainDataLen := length_append
  have htake : (ins.headers ++ (ins.blockChunks.flatten ++ ins.mainData.flatten)).take
      (ins.totalLen - sizeOfXLogRecord) =
        ins.headers ++ (ins.blockChunks.flatten ++ ins.mainData.flatten) := by
    apply take_of_length_le
    rw [length_append, totalLen]
    omega
  have hrun : decodeRecord (ins.rdata prev crc).flatten = .ok
      ({ header := ins.header prev crc
         blocks := ins.blocks.map AssembledBlock.decoded
         origin := ins.origin.getD 0
         toplevelXid := ins.toplevelXid.getD 0
         mainData := ins.mainData.flatten
         metaSize := sizeOfXLogRecord + ins.headers.length }, []) := by
    simp only [rdata, flatten_cons, flatten_append, append_assoc, decodeRecord]
    rw [run_ok_bind (readHeader_bytes _), run_modify_bind, htot, htake,
      run_ok_bind (ins.decodeHeaders_headers hfits (by simp only [totalLen, sizeOfXLogRecord]; omega)
        hpay), run_get_bind, run_ok_bind (check_ok (by simp [headerState, hpay]))]
    have hblocks : ins.headerState.blocks = ins.blocks.map AssembledBlock.ref :=
      (addRefs_init (ins.blocks.map AssembledBlock.ref)).1
    have hmain : take DecodeError.shortData ins.headerState.mainDataLen (ins.mainData.flatten ++ [])
        = .ok (ins.mainData.flatten, []) := take_append rfl
    rw [append_nil] at hmain
    rw [hblocks, blockChunks, run_ok_bind (readBlocks_chunks ins.length_of_mem_blocks),
      run_ok_bind hmain, run_pure]
    congr 3
    change ins.totalLen - (ins.blockChunks.flatten ++ ins.mainData.flatten).length = _
    rw [totalLen]
    omega
  rw [decodeXLogRecord, hrun]
  rfl

end Insertion

end Polar.Wal
